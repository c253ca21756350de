import OsLab.Disks.Batches

/-!
# The precise simulator

`disk-precise.py` is the simulator with exact decimals. Its scheduling differs in one place: where
the window of BSATF moves on, `GetWindow` cuts it to the queue as it is then, and leaves it so.

* **`Precise.getWindow`** -- the one function that is written anew; the others call it where `Disk`
  calls its own.
* **`slice`**, **`Candidate`**, **`Decides`** -- what a decision looks at, in either program, and
  the disks that a run decides with.
* **`SameWindow`** -- the property to be compared: at decisions after the same requests, both
  programs choose among the same ones.
-/

namespace OsLab.Disks

namespace Disk

/-! ## disk-precise.py -/

namespace Precise

def getWindow (d : Disk) : Int × Disk :=
  if d.currWindow ≤ -1 then
    (d.requestQueue.length, d)
  else if d.fairWindow ≠ -1 then
    let d :=
      if d.requestCount > 0 ∧ (d.requestCount : Int) % d.fairWindow = 0 then
        let d := { d with currWindow := d.currWindow + d.fairWindow }
        if d.currWindow > d.requestQueue.length then
          { d with currWindow := d.requestQueue.length }
        else
          d
      else
        d
    (d.currWindow, d)
  else
    (d.currWindow, d)

/-- The policy's part of `GetNextIO`. -/
def choose (d : Disk) (est : Block → Rat) : Except Abort ((Block × Option Nat) × Disk) :=
  match d.policy with
  | .FIFO => do
    let (block, i) ← index d.requestQueue (some d.requestCount)
    let _ ← d.doSATF est ((d.requestQueue.drop d.requestCount).take 1)
    return ((block, some i), d)
  | .SATF | .BSATF => do
    let (endIndex, d) := getWindow d
    let chosen ← d.doSATF est (d.requestQueue.take endIndex.toNat)
    return (chosen, d)
  | .SSTF => do
    let (endIndex, d) := getWindow d
    let trackList ← d.doSSTF (d.requestQueue.take endIndex.toNat)
    let chosen ← d.doSATF est trackList
    return (chosen, d)

def getNextIo (d : Disk) (est : Block → Rat) : Except Abort Disk :=
  if d.requestCount = d.requestQueue.length then
    .ok { d with isDone := true }
  else do
    let ((block, i), d) ← choose d est
    let d := { d with currentBlock := block, currentIndex := i }
    let track ← d.layout.blockToTrackMap d.currentBlock
    let d ← d.planSeek track
    return d.addLate

/-- The part of `Animate` for a transfer that has ended. -/
def transferred (d : Disk) (est : Block → Rat) : Except Abort Disk := do
  let next ← d.endTransfer
  let next ← getNextIo next est
  let stays ← next.follows d.currentBlock next.currentBlock
  if stays then next.switchState .xfer else return next

/-- `Animate` -/
def animate (d : Disk) (tick : Tick) : Except Abort Disk := do
  let d ← d.arrive tick
  if d.state = .xfer ∧ tick.transferDone then transferred d tick.est else pure d

/-- `Go` up to its loop. -/
def start (c : Config) (est : Block → Rat) : Except Abort Disk :=
  if c.window = 0 then
    .error .exit
  else do
    let d ← new c
    getNextIo d est

/-- The loop of `Go`. -/
def simulation (c : Config) : Lts Disk Tick where
  init d := ∃ est, start c est = .ok d
  step d tick d' := d.isDone = false ∧ animate d tick = .ok d'

/-- The requests that `GetNextIO` hands over to `DoSATF` or `DoSSTF`. -/
def slice (d : Disk) : List (Block × Nat) :=
  match d.policy with
  | .FIFO => (d.requestQueue.drop d.requestCount).take 1
  | _ => d.requestQueue.take (getWindow d).1.toNat

end Precise

/-! ## What is eligible -/

/-- The requests that `GetNextIO` hands over to `DoSATF` or `DoSSTF`. -/
def slice (d : Disk) : List (Block × Nat) :=
  match d.policy with
  | .FIFO => (d.requestQueue.drop d.requestCount).take 1
  | .SATF | .BSATF =>
    let endIndex := d.getWindow.1
    let endIndex :=
      if endIndex > d.requestQueue.length then (d.requestQueue.length : Int) else endIndex
    d.requestQueue.take endIndex.toNat
  | .SSTF => d.requestQueue.take d.getWindow.1.toNat

/-- Request `i` is among them and has not been served. -/
def Candidate (d : Disk) (slice : List (Block × Nat)) (i : Nat) : Prop :=
  ∃ e ∈ slice, e.2 = i ∧ d.Eligible i

/-- A run of `sim` calls `GetNextIO` with this disk. -/
inductive Decides (sim : Lts Disk Tick) (c : Config) : Disk → Prop where
  | first {d : Disk} (hnew : new c = .ok d) : Decides sim c d
  | next {d d₁ d₂ : Disk} {tick : Tick} (hreach : sim.Reachable d) (hgoing : d.isDone = false)
      (harrive : d.arrive tick = .ok d₁) (hends : d₁.state = .xfer ∧ tick.transferDone = true)
      (hafter : d₁.endTransfer = .ok d₂) : Decides sim c d₂

/-- When both simulators have served the same requests, the same requests are eligible; and
`disk-precise.py` always has an eligible one while a request in the queue has not been served. -/
structure SameWindow (c : Config) : Prop where
  same : ∀ d p, Decides (simulation c) c d → Decides (Precise.simulation c) c p →
    d.served.Perm p.served → ∀ i, d.Candidate d.slice i ↔ p.Candidate (Precise.slice p) i
  some : ∀ p, Decides (Precise.simulation c) c p → ∀ i, p.Eligible i →
    ∃ j, p.Candidate (Precise.slice p) j

end Disk

end OsLab.Disks
