import OsLab.Lib.CondVar
import OsLab.Lib.Lts

/-!
# The train station

Passengers `ι`, each calls `station_wait_for_train` and then `station_on_board`, and a train that
calls `station_load_train` again and again. What a thread does from taking `fillingTrain` to its
next `cond_wait` or to the release of the lock is one step. Which passenger a signal wakes is an
argument of the step.

* **`Station`**, **`stationNext`**, **`stationSystem`** -- `struct station` with the program points
  of the threads, and the steps of the three calls. `capacity` and `aboard` are not in the program;
  they count what the results about a train speak of.
* **`Boarding`** -- the invariant: `waitingPassenger`, `standing` and `numSeats` are the numbers
  they stand for, nobody boards a full train, and what the train waits for is there (`TrainReady`).
* **`Boarding.arrive`**, **`Boarding.board`**, **`Boarding.onBoard`**, **`Boarding.loadLoop`** --
  each step keeps it. `move_counts` does the counting for the three of them that move a passenger.
* **`station_boarding`** -- what the invariant says of every reachable state, and what the train
  guarantees when it leaves.
-/

namespace OsLab.Threads

open CondVar

/-- Where a passenger is. `woken` has been signalled and has to take the lock again. -/
inductive PassengerPc where
  | outside
  | waiting
  | woken
  | boarded
  | seated
  deriving DecidableEq

/-- Where the train is: in `station_load_train` it waits on `waitToSeat`, with its own `count`, or
on `waitForPass`, or it has been woken from there. -/
inductive TrainPc where
  | away
  | waitToSeat (count : Int)
  | sat (count : Int)
  | waitForPass
  | leaving
  deriving DecidableEq

/-- `struct station` and the threads. `capacity` is the `count` of the last call of
`station_load_train`, `aboard` counts the passengers that have boarded since. -/
structure Station (ι : Type) where
  waitingPassenger : Int
  standing : Int
  numSeats : Int
  passenger : ι → PassengerPc
  train : TrainPc
  capacity : Nat
  aboard : Nat

inductive StationStep (ι : Type) where
  | arrive (i : ι)
  | board (i : ι)
  | onBoard (i : ι)
  | loadTrain (count : Nat) (choice : Option ι)
  | resumeLoading (choice : Option ι)
  | leave

section Model

variable {ι : Type} [DecidableEq ι] [Fintype ι]

/-- `station_init` -/
def stationInit : Station ι where
  waitingPassenger := 0
  standing := 0
  numSeats := 0
  passenger _ := .outside
  train := .away
  capacity := 0
  aboard := 0

/-- `cond_signal(waitForTrain)` -/
def signalTrain (passenger : ι → PassengerPc) (choice : Option ι) : Option (ι → PassengerPc) :=
  signal (fun pc => decide (pc = .waiting)) (fun _ => .woken) passenger choice

/-- `cond_signal(waitToSeat)`; only the train waits there. -/
def signalSeat : TrainPc → TrainPc
  | .waitToSeat count => .sat count
  | train => train

/-- `cond_broadcast(waitForPass)` -/
def broadcastPass : TrainPc → TrainPc
  | .waitForPass => .leaving
  | train => train

/-- `station_load_train` after its loop. -/
def loadDone (s : Station ι) : Station ι :=
  { s with train := if s.standing > 0 then .waitForPass else .away }

/-- `station_load_train` from the test of its loop on. -/
def loadLoop (s : Station ι) (count : Int) (choice : Option ι) : Option (Station ι) :=
  if s.waitingPassenger > 0 ∧ count > 0 then do
    let passenger ← signalTrain s.passenger choice
    return { s with passenger := passenger, train := .waitToSeat (count - 1) }
  else
    some (loadDone s)

/-- `station_wait_for_train` up to its `cond_wait`. -/
def waitForTrain (s : Station ι) (i : ι) : Station ι :=
  { s with
    waitingPassenger := s.waitingPassenger + 1
    passenger := Function.update s.passenger i .waiting }

/-- `station_wait_for_train` after its `cond_wait`. -/
def boardTrain (s : Station ι) (i : ι) : Station ι :=
  { s with
    standing := s.standing + 1
    waitingPassenger := s.waitingPassenger - 1
    numSeats := s.numSeats - 1
    train := signalSeat s.train
    passenger := Function.update s.passenger i .boarded
    aboard := s.aboard + 1 }

/-- `station_on_board` -/
def stationOnBoard (s : Station ι) (i : ι) : Station ι :=
  { s with
    standing := s.standing - 1
    train := if s.standing - 1 = 0 then broadcastPass s.train else s.train
    passenger := Function.update s.passenger i .seated }

def stationNext (s : Station ι) : StationStep ι → Option (Station ι)
  | .arrive i => if s.passenger i = .outside then some (waitForTrain s i) else none
  | .board i => if s.passenger i = .woken then some (boardTrain s i) else none
  | .onBoard i => if s.passenger i = .boarded then some (stationOnBoard s i) else none
  | .loadTrain count choice =>
    if s.train = .away then
      loadLoop { s with numSeats := count, capacity := count, aboard := 0 } count choice
    else
      none
  | .resumeLoading choice =>
    match s.train with
    | .sat count => loadLoop s count choice
    | _ => none
  | .leave => if s.train = .leaving then some { s with train := .away } else none

/-- All interleavings of the passengers and of any calls of `station_load_train`. -/
def stationSystem (ι : Type) [DecidableEq ι] [Fintype ι] : Lts (Station ι) (StationStep ι) :=
  .ofFun (· = stationInit) stationNext

/-! ## The passengers -/

/-- The passengers that have entered `station_wait_for_train` and have not boarded. -/
def notBoarded (s : Station ι) : Nat :=
  atPoint s.passenger .waiting + atPoint s.passenger .woken

/-- The passenger that the train waits for, the seats that are left, and nobody standing when it
leaves. -/
def TrainReady (s : Station ι) : TrainPc → Prop
  | .away => atPoint s.passenger .woken = 0
  | .waitToSeat count => atPoint s.passenger .woken = 1 ∧ 0 ≤ count ∧
      count + 1 = (s.capacity : Int) - s.aboard
  | .sat count => atPoint s.passenger .woken = 0 ∧ 0 ≤ count ∧
      count = (s.capacity : Int) - s.aboard
  | .waitForPass => atPoint s.passenger .woken = 0 ∧ 0 < s.standing
  | .leaving => atPoint s.passenger .woken = 0 ∧ s.standing = 0

structure Boarding (s : Station ι) : Prop where
  waiting : s.waitingPassenger = notBoarded s
  standing : s.standing = atPoint s.passenger .boarded
  seats : s.numSeats = (s.capacity : Int) - s.aboard
  room : s.aboard ≤ s.capacity
  ready : TrainReady s s.train

omit [DecidableEq ι] in
/-- An empty station: nobody has come, and the train is away. -/
theorem boarding_init : Boarding (stationInit : Station ι) where
  waiting := by simp [stationInit, notBoarded, atPoint_const_of_ne]
  standing := by simp [stationInit, atPoint_const_of_ne]
  seats := by simp [stationInit]
  room := by simp [stationInit]
  ready := by simp [stationInit, TrainReady, atPoint_const_of_ne]

variable {s t : Station ι} {i : ι} {count : Int} {choice : Option ι}

/-- What a passenger's move does to the counts: the program point that it leaves loses one, the one
that it comes to gains one, and all others keep theirs. -/
theorem move_counts {p p' : PassengerPc} (hi : s.passenger i = p) (hne : p ≠ p') :
    atPoint (Function.update s.passenger i p') p + 1 = atPoint s.passenger p ∧
      atPoint (Function.update s.passenger i p') p' = atPoint s.passenger p' + 1 ∧
      ∀ q, q ≠ p → q ≠ p' →
        atPoint (Function.update s.passenger i p') q = atPoint s.passenger q := by
  refine ⟨?_, ?_, fun q hp hp' => ?_⟩
  · simpa [hne.symm] using atPoint_update hi p' p
  · simpa [hne] using atPoint_update hi p' p'
  · simpa [Ne.symm hp, Ne.symm hp'] using atPoint_update hi p' q

/-- A passenger enters `station_wait_for_train`: it is one more that waits and has not boarded. The
train need not be there, and no count of the train changes. -/
theorem Boarding.arrive (h : Boarding s) (hi : s.passenger i = .outside) :
    Boarding (waitForTrain s i) := by
  obtain ⟨_, hwaiting, hother⟩ := move_counts hi (show PassengerPc.outside ≠ .waiting by decide)
  have hwoken := hother .woken (by decide) (by decide)
  have hboarded := hother .boarded (by decide) (by decide)
  have hold := h.waiting
  have hready := h.ready
  unfold notBoarded at hold
  refine ⟨?_, ?_, h.seats, h.room, ?_⟩
  · show s.waitingPassenger + 1 = ((atPoint (Function.update s.passenger i .waiting) .waiting +
      atPoint (Function.update s.passenger i .waiting) .woken : Nat) : Int)
    omega
  · show s.standing = atPoint (Function.update s.passenger i .waiting) .boarded
    rw [hboarded]
    exact h.standing
  · show TrainReady (waitForTrain s i) s.train
    cases htrain : s.train <;> rw [htrain] at hready <;>
      simpa [TrainReady, waitForTrain, hwoken] using hready

/-- A woken passenger takes the lock again and boards. It is the one that the train waits for, so a
seat was kept for it, and the train is told. -/
theorem Boarding.board (h : Boarding s) (hi : s.passenger i = .woken) :
    Boarding (boardTrain s i) := by
  obtain ⟨hwoken, hboarded, hother⟩ := move_counts hi (show PassengerPc.woken ≠ .boarded by decide)
  have hwaiting := hother .waiting (by decide) (by decide)
  have hold := h.waiting
  have hstanding := h.standing
  have hseats := h.seats
  have hready := h.ready
  unfold notBoarded at hold
  -- the train waits for this passenger: nobody else has been signalled
  obtain ⟨count, htrain⟩ : ∃ count, s.train = .waitToSeat count := by
    cases htrain : s.train with
    | waitToSeat count => exact ⟨count, rfl⟩
    | away =>
      rw [htrain] at hready
      have hnone : atPoint s.passenger .woken = 0 := hready
      omega
    | sat count =>
      rw [htrain] at hready
      have hnone : atPoint s.passenger .woken = 0 := hready.1
      omega
    | waitForPass =>
      rw [htrain] at hready
      have hnone : atPoint s.passenger .woken = 0 := hready.1
      omega
    | leaving =>
      rw [htrain] at hready
      have hnone : atPoint s.passenger .woken = 0 := hready.1
      omega
  rw [htrain] at hready
  obtain ⟨hone, hcount, hleft⟩ := hready
  refine ⟨?_, ?_, ?_, ?_, ?_⟩
  · show s.waitingPassenger - 1 = ((atPoint (Function.update s.passenger i .boarded) .waiting +
      atPoint (Function.update s.passenger i .boarded) .woken : Nat) : Int)
    omega
  · show s.standing + 1 = atPoint (Function.update s.passenger i .boarded) .boarded
    omega
  · show s.numSeats - 1 = (s.capacity : Int) - (s.aboard + 1 : Nat)
    omega
  · show s.aboard + 1 ≤ s.capacity
    omega
  · show TrainReady (boardTrain s i) (signalSeat s.train)
    rw [htrain]
    refine ⟨?_, hcount, ?_⟩
    · show atPoint (Function.update s.passenger i .boarded) .woken = 0
      omega
    · show count = (s.capacity : Int) - (s.aboard + 1 : Nat)
      omega

/-- A passenger sits down. If it was the last one standing the train need not wait any more. -/
theorem Boarding.onBoard (h : Boarding s) (hi : s.passenger i = .boarded) :
    Boarding (stationOnBoard s i) := by
  obtain ⟨hboarded, _, hother⟩ := move_counts hi (show PassengerPc.boarded ≠ .seated by decide)
  have hwoken := hother .woken (by decide) (by decide)
  have hwaiting := hother .waiting (by decide) (by decide)
  have hstanding := h.standing
  have hready := h.ready
  refine ⟨?_, ?_, h.seats, h.room, ?_⟩
  · show s.waitingPassenger = ((atPoint (Function.update s.passenger i .seated) .waiting +
      atPoint (Function.update s.passenger i .seated) .woken : Nat) : Int)
    rw [hwoken, hwaiting]
    exact h.waiting
  · show s.standing - 1 = atPoint (Function.update s.passenger i .seated) .boarded
    omega
  · show TrainReady (stationOnBoard s i)
      (if s.standing - 1 = 0 then broadcastPass s.train else s.train)
    cases htrain : s.train with
    | waitForPass =>
      -- the last one to sit down wakes the train
      rw [htrain] at hready
      split
      · exact ⟨hwoken.trans hready.1, ‹_›⟩
      · refine ⟨hwoken.trans hready.1, ?_⟩
        show 0 < s.standing - 1
        have hpos := hready.2
        omega
    | leaving =>
      rw [htrain] at hready
      have hnone := hready.2
      omega
    | away =>
      rw [htrain] at hready
      have hnone : atPoint s.passenger .woken = 0 := hready
      split <;> exact hwoken.trans hnone
    | waitToSeat count =>
      rw [htrain] at hready
      obtain ⟨hone, hcount⟩ := hready
      split <;> exact ⟨hwoken.trans hone, hcount⟩
    | sat count =>
      rw [htrain] at hready
      obtain ⟨hnone, hcount⟩ := hready
      split <;> exact ⟨hwoken.trans hnone, hcount⟩

/-- From the test of the loop on: nobody is signalled, and `count` seats are left. Either the train
signals somebody who waits, and keeps a seat for it, or it is full or nobody waits. -/
theorem Boarding.loadLoop (hwaiting : s.waitingPassenger = notBoarded s)
    (hstanding : s.standing = atPoint s.passenger .boarded)
    (hseats : s.numSeats = (s.capacity : Int) - s.aboard)
    (hnone : atPoint s.passenger .woken = 0) (hcount : 0 ≤ count)
    (hleft : count = (s.capacity : Int) - s.aboard) (hstep : loadLoop s count choice = some t) :
    Boarding t ∧ ((t.train = .away ∨ t.train = .waitForPass) →
      t.aboard = t.capacity ∨ t.waitingPassenger = 0) ∧ (t.train = .away → t.standing = 0) := by
  unfold notBoarded at hwaiting
  unfold Threads.loadLoop at hstep
  split at hstep
  · -- a passenger waits, so the signal is not lost
    rename_i hgo
    obtain ⟨passenger, hsignal, hstep⟩ := Option.bind_eq_some_iff.mp hstep
    obtain rfl := Option.some.inj hstep
    rcases atPoint_signal (by decide) hsignal with ⟨hempty, _⟩ | ⟨hless, hwoken, hother⟩
    · omega
    have hboarded := hother .boarded (by decide) (by decide)
    refine ⟨⟨?_, ?_, hseats, ?_, ?_, ?_, ?_⟩, ?_, ?_⟩
    · show s.waitingPassenger = ((atPoint passenger .waiting + atPoint passenger .woken : Nat) : Int)
      omega
    · show s.standing = atPoint passenger .boarded
      omega
    · show s.aboard ≤ s.capacity
      omega
    · show atPoint passenger .woken = 1
      omega
    · omega
    -- The seat is counted off before the passenger has taken it.
    · show count - 1 + 1 = (s.capacity : Int) - s.aboard
      omega
    · rintro (haway | hpass)
      · cases haway
      · cases hpass
    · intro haway
      cases haway
  · -- the loop ends
    rename_i hend
    obtain rfl := Option.some.inj hstep
    refine ⟨⟨hwaiting, hstanding, hseats, ?_, ?_⟩, fun _ => ?_, fun haway => ?_⟩
    · show s.aboard ≤ s.capacity
      omega
    -- The train waits exactly if somebody has boarded and not sat down.
    · show TrainReady (loadDone s) (if s.standing > 0 then .waitForPass else .away)
      split
      · exact ⟨hnone, ‹_›⟩
      · exact hnone
    · show s.aboard = s.capacity ∨ s.waitingPassenger = 0
      omega
    · show s.standing = 0
      have hgone : (if s.standing > 0 then TrainPc.waitForPass else .away) = .away := haway
      split at hgone
      · cases hgone
      · omega

/-- What a step of the train guarantees. -/
structure Departure (s : Station ι) (t : Station ι) : Prop where
  loaded : (s.train = .away ∨ ∃ count, s.train = .sat count) →
    (t.train = .away ∨ t.train = .waitForPass) → t.aboard = t.capacity ∨ t.waitingPassenger = 0
  returned : t.train = .away → t.standing = 0

/-- The steps of the train. -/
def StationStep.IsTrain : StationStep ι → Prop
  | .loadTrain .. | .resumeLoading .. | .leave => True
  | _ => False

/-- Every step keeps the invariant, and a step of the train that ends its loop or its call does so
as it should. -/
theorem Boarding.next (h : Boarding s) {a : StationStep ι} (hstep : stationNext s a = some t) :
    Boarding t ∧ (a.IsTrain → Departure s t) := by
  cases a with
  | arrive i =>
    obtain ⟨hi, hstep⟩ := Option.ite_none_right_eq_some.mp hstep
    obtain rfl := Option.some.inj hstep
    exact ⟨h.arrive hi, False.elim⟩
  | board i =>
    obtain ⟨hi, hstep⟩ := Option.ite_none_right_eq_some.mp hstep
    obtain rfl := Option.some.inj hstep
    exact ⟨h.board hi, False.elim⟩
  | onBoard i =>
    obtain ⟨hi, hstep⟩ := Option.ite_none_right_eq_some.mp hstep
    obtain rfl := Option.some.inj hstep
    exact ⟨h.onBoard hi, False.elim⟩
  -- The train comes back with `count` free seats and nobody aboard.
  | loadTrain count choice =>
    obtain ⟨haway, hstep⟩ := Option.ite_none_right_eq_some.mp hstep
    have hready := h.ready
    rw [haway] at hready
    obtain ⟨ht, hloaded, hreturned⟩ := Boarding.loadLoop (s := { s with
      numSeats := count, capacity := count, aboard := 0 }) h.waiting h.standing (by simp) hready
      (by simp) (by simp) hstep
    exact ⟨ht, fun _ => ⟨fun _ => hloaded, hreturned⟩⟩
  -- Only at `sat count` is the loop in the middle.
  | resumeLoading choice =>
    have hready := h.ready
    unfold stationNext at hstep
    cases htrain : s.train with
    | sat count =>
      rw [htrain] at hready hstep
      obtain ⟨hnone, hcount, hleft⟩ := hready
      obtain ⟨ht, hloaded, hreturned⟩ :=
        Boarding.loadLoop h.waiting h.standing h.seats hnone hcount hleft hstep
      exact ⟨ht, fun _ => ⟨fun _ => hloaded, hreturned⟩⟩
    | _ =>
      rw [htrain] at hstep
      cases hstep
  | leave =>
    obtain ⟨hleaving, hstep⟩ := Option.ite_none_right_eq_some.mp hstep
    obtain rfl := Option.some.inj hstep
    have hready := h.ready
    rw [hleaving] at hready
    refine ⟨⟨h.waiting, h.standing, h.seats, h.room, hready.1⟩, fun _ => ⟨?_, fun _ => hready.2⟩⟩
    -- It was about to leave, so it was not at either of the two points of loading.
    rintro (haway | ⟨count, hsat⟩)
    · rw [hleaving] at haway
      cases haway
    · rw [hleaving] at hsat
      cases hsat

/-- The invariant holds in every reachable state. -/
theorem boarding_reachable (h : (stationSystem ι).Reachable s) : Boarding s := by
  refine h.invariant ?_ ?_
  · intro s hs
    subst hs
    exact boarding_init
  · intro s a t hs hstep
    exact (hs.next hstep).1

/-- **A train takes whom it has room for, and leaves with nobody standing.** In every reachable
state the counters are right and a train that waits has somebody to wait for; the loop ends when the
train is full or nobody waits, and a train leaves only when all who have boarded have sat down. -/
theorem station_boarding (h : (stationSystem ι).Reachable s) :
    (0 ≤ s.waitingPassenger ∧ s.waitingPassenger = notBoarded s) ∧
      (s.aboard ≤ s.capacity ∧ s.numSeats = (s.capacity : Int) - s.aboard) ∧
      (∀ count, s.train = .waitToSeat count → ∃ i, s.passenger i = .woken) ∧
      (s.train = .waitForPass → 0 < s.standing ∧ ∃ i, s.passenger i = .boarded) ∧
      ∀ (a : StationStep ι) t, a.IsTrain → stationNext s a = some t →
        ((s.train = .away ∨ ∃ count, s.train = .sat count) →
          (t.train = .away ∨ t.train = .waitForPass) →
            t.aboard = t.capacity ∨ t.waitingPassenger = 0) ∧
        (t.train = .away → t.standing = 0) := by
  have hboarding := boarding_reachable h
  have hwaiting := hboarding.waiting
  have hstanding := hboarding.standing
  have hready := hboarding.ready
  refine ⟨⟨by omega, hwaiting⟩, ⟨hboarding.room, hboarding.seats⟩, fun count htrain => ?_,
    fun htrain => ?_, fun a t htrain hstep => ?_⟩
  · rw [htrain] at hready
    have hone : atPoint s.passenger .woken = 1 := hready.1
    exact exists_atPoint (by omega)
  · rw [htrain] at hready
    have hpos : 0 < s.standing := hready.2
    exact ⟨hpos, exists_atPoint (by omega)⟩
  · obtain ⟨_, hdeparture⟩ := hboarding.next hstep
    exact ⟨(hdeparture htrain).loaded, (hdeparture htrain).returned⟩

end Model

/-- Two passengers wait and a train with one seat comes. It takes one of them, waits until that
passenger sits, and is away again with the other one still waiting. -/
theorem station_boarding_oneSeat :
    ∃ s t, (stationSystem (Fin 2)).Reachable s ∧ stationNext s .leave = some t ∧
      (s.train = .leaving ∧ t.train = .away) ∧ s.passenger 1 = .seated ∧
      (s.waitingPassenger = notBoarded s ∧ s.waitingPassenger = 1) ∧
      s.aboard ≤ s.capacity ∧ s.numSeats = 0 ∧ t.standing = 0 := by
  let steps : List (StationStep (Fin 2)) := [.arrive 0, .arrive 1, .loadTrain 1 (some 1), .board 1,
    .resumeLoading none, .onBoard 1]
  have hruns : (steps.foldlM stationNext stationInit).any (fun s => s.train = .leaving ∧
      s.passenger 1 = .seated ∧ s.waitingPassenger = 1 ∧ s.capacity = 1 ∧ s.aboard = 1) = true := by
    decide
  rw [Option.any_eq_true] at hruns
  obtain ⟨s, hs, hstate⟩ := hruns
  obtain ⟨htrain, hseated, hleft, hcapacity, haboard⟩ := of_decide_eq_true hstate
  have hreach : (stationSystem (Fin 2)).Reachable s := ⟨_, _, rfl, Lts.run_ofFun.mpr hs⟩
  have hleave : stationNext s .leave = some { s with train := .away } := if_pos htrain
  obtain ⟨⟨_, hwaiting⟩, ⟨hroom, hseats⟩, _, _, htrips⟩ := station_boarding hreach
  refine ⟨s, _, hreach, hleave, ⟨htrain, rfl⟩, hseated, ⟨hwaiting, hleft⟩, hroom, ?_,
    (htrips .leave _ trivial hleave).2 rfl⟩
  rw [hseats, hcapacity, haboard]
  rfl

end OsLab.Threads
