import OsLab.Threads.Reaction
import OsLab.Threads.Train

/-!
# Waits that return without a signal

`cond_wait` may return although nobody has signalled. `reaction_o` and the loop of
`station_load_train` test their conditions again; `reaction_h` and `station_wait_for_train` do not.

* **`spuriousReaction`**, **`spuriousStation`** -- the systems of `OsLab.Threads.Reaction` and
  `OsLab.Threads.Train` with wake-ups as further steps.
* **`SpuriousReactionStep.Guarded`**, **`SpuriousStationStep.Guarded`** -- the steps but for
  wake-ups of hydrogens and of passengers. Runs of guarded steps are those of `Lts.restrict`.
* **`Seated`** -- the invariant of the station that survives wake-ups of the train: nobody is let
  through who has not been offered a seat.
* **`tolerates_wakeUps`**, **`wakeUps_break`** -- guarded runs keep what the calls promise, and one
  wake-up of the other kind breaks it.
-/

namespace OsLab.Threads

open CondVar

/-! ## The water reaction -/

inductive SpuriousReactionStep (ι κ : Type) where
  | call (a : ReactionStep ι κ)
  | wakeH (i : ι)
  | wakeO (j : κ)

section Reactions

variable {ι κ : Type} [DecidableEq ι] [Fintype ι] [DecidableEq κ] [Fintype κ]

def spuriousReactionNext (s : Reaction ι κ) : SpuriousReactionStep ι κ → Option (Reaction ι κ)
  | .call a => reactionNext s a
  | .wakeH i =>
    if s.hydrogen i = .waiting then
      some { s with hydrogen := Function.update s.hydrogen i .woken }
    else
      none
  | .wakeO j =>
    if s.oxygen j = .waiting then
      some { s with oxygen := Function.update s.oxygen j .woken }
    else
      none

/-- The interleavings of the calls with wake-ups anywhere. -/
def spuriousReaction (ι κ : Type) [DecidableEq ι] [Fintype ι] [DecidableEq κ] [Fintype κ] :
    Lts (Reaction ι κ) (SpuriousReactionStep ι κ) :=
  .ofFun (· = reactionInit) spuriousReactionNext

/-- Not a hydrogen that wakes up by itself. -/
def SpuriousReactionStep.Guarded : SpuriousReactionStep ι κ → Prop
  | .wakeH _ => False
  | _ => True

variable {s t : Reaction ι κ} {j : κ}

omit [DecidableEq ι] in
/-- An oxygen woken for nothing is one more that will test the condition, which the invariant
allows. -/
theorem Balanced.wakeO (h : Balanced s) (hj : s.oxygen j = .waiting) :
    Balanced { s with oxygen := Function.update s.oxygen j .woken } := by
  have hreturned := atPoint_update hj .woken .returned
  have hwoken := atPoint_update hj .woken .woken
  simp only [reduceCtorEq, if_true, if_false, Nat.add_zero] at hreturned hwoken
  have hsome : atPoint s.oxygen .waiting ≠ 0 := fun hnone => atPoint_eq_zero.mp hnone j hj
  have hbound := h.wakeUps hsome
  refine ⟨h.numH, h.signalled, ?_, fun _ => ?_⟩
  · show atPoint (Function.update s.oxygen j .woken) .returned = s.water
    rw [hreturned]
    exact h.made
  · show s.numH ≤ 2 * (atPoint (Function.update s.oxygen j .woken) .woken : Int) + 1
    omega

/-- Guarded steps keep the invariant of the reaction. -/
theorem Balanced.spuriousNext (h : Balanced s) {a : SpuriousReactionStep ι κ} (ha : a.Guarded)
    (hstep : spuriousReactionNext s a = some t) : Balanced t := by
  cases a with
  | call a => exact h.next hstep
  | wakeH i => exact ha.elim
  | wakeO j =>
    obtain ⟨hj, hstep⟩ := Option.ite_none_right_eq_some.mp hstep
    obtain rfl := Option.some.inj hstep
    exact h.wakeO hj

/-- The invariant of the reaction holds wherever guarded steps lead. -/
theorem balanced_of_guarded
    (h : ((spuriousReaction ι κ).restrict fun _ a => a.Guarded).Reachable s) : Balanced s := by
  refine h.invariant ?_ ?_
  · intro s hs
    subst hs
    exact balanced_init
  · rintro s a t hs ⟨ha, hstep⟩
    exact hs.spuriousNext ha hstep

end Reactions

/-! ## The train station -/

/-- The station and the seats that the calls of `station_load_train` have offered so far. -/
structure Offers (ι : Type) where
  station : Station ι
  offered : Nat

inductive SpuriousStationStep (ι : Type) where
  | call (a : StationStep ι)
  | wakePassenger (i : ι)
  | wakeTrain

/-- The seats that a step offers. -/
def StationStep.seats {ι : Type} : StationStep ι → Nat
  | .loadTrain count _ => count
  | _ => 0

/-- The train's `cond_wait` returns. -/
def wakeTrain : TrainPc → Option TrainPc
  | .waitToSeat count => some (.sat count)
  | .waitForPass => some .leaving
  | _ => none

section Stations

variable {ι : Type} [DecidableEq ι] [Fintype ι]

def spuriousStationNext (s : Offers ι) : SpuriousStationStep ι → Option (Offers ι)
  | .call a => do
    let station ← stationNext s.station a
    return ⟨station, s.offered + a.seats⟩
  | .wakePassenger i =>
    if s.station.passenger i = .waiting then
      some { s with station.passenger := Function.update s.station.passenger i .woken }
    else
      none
  | .wakeTrain => do
    let train ← wakeTrain s.station.train
    return { s with station.train := train }

/-- The interleavings of the calls with wake-ups anywhere; there is one train at a time. -/
def spuriousStation (ι : Type) [DecidableEq ι] [Fintype ι] :
    Lts (Offers ι) (SpuriousStationStep ι) :=
  .ofFun (· = ⟨stationInit, 0⟩) spuriousStationNext

/-- Not a passenger that wakes up by itself. -/
def SpuriousStationStep.Guarded : SpuriousStationStep ι → Prop
  | .wakePassenger _ => False
  | _ => True

/-- The seats that the train may still signal for. -/
def seatsLeft : TrainPc → Int
  | .waitToSeat count => count
  | .sat count => count
  | _ => 0

/-- The passengers that have been let through. -/
def letThrough (passenger : ι → PassengerPc) : Nat :=
  atPoint passenger .woken + atPoint passenger .boarded + atPoint passenger .seated

/-- Who has been let through, with the seats still to be signalled for, has been offered a seat. -/
structure Seated (s : Offers ι) : Prop where
  left : 0 ≤ seatsLeft s.station.train
  through : letThrough s.station.passenger + seatsLeft s.station.train ≤ s.offered

omit [DecidableEq ι] in
/-- At first nobody is on the train and no seat has been offered. -/
theorem seated_init : Seated (⟨stationInit, 0⟩ : Offers ι) where
  left := by simp [stationInit, seatsLeft]
  through := by simp [stationInit, seatsLeft, letThrough, atPoint_const_of_ne]

variable {s t : Offers ι} {st : Station ι} {passenger : ι → PassengerPc} {i : ι} {n : Nat}
  {count : Int} {choice : Option ι}

/-- A passenger goes on that has been let through already: the number stays. -/
theorem letThrough_update {p p' : PassengerPc} (hi : passenger i = p)
    (hp : p = .woken ∧ p' = .boarded ∨ p = .boarded ∧ p' = .seated) :
    letThrough (Function.update passenger i p') = letThrough passenger := by
  have hmove := fun q => atPoint_update hi p' q
  have hwoken := hmove .woken
  have hboarded := hmove .boarded
  have hseated := hmove .seated
  unfold letThrough
  rcases hp with ⟨rfl, rfl⟩ | ⟨rfl, rfl⟩ <;>
    simp only [reduceCtorEq, if_true, if_false, Nat.add_zero] at hwoken hboarded hseated <;> omega

/-- A new passenger has not been let through. -/
theorem letThrough_arrive (hi : passenger i = .outside) :
    letThrough (Function.update passenger i .waiting) = letThrough passenger := by
  have hmove := fun q => atPoint_update hi .waiting q
  have hwoken := hmove .woken
  have hboarded := hmove .boarded
  have hseated := hmove .seated
  simp only [reduceCtorEq, if_false, Nat.add_zero] at hwoken hboarded hseated
  unfold letThrough
  omega

/-- A signal lets one passenger through at most. -/
theorem letThrough_signal {passenger' : ι → PassengerPc}
    (h : signalTrain passenger choice = some passenger') :
    letThrough passenger' ≤ letThrough passenger + 1 := by
  unfold letThrough
  rcases atPoint_signal (by decide) h with ⟨_, rfl⟩ | ⟨_, hwoken, hother⟩
  · omega
  · have hboarded := hother .boarded (by decide) (by decide)
    have hseated := hother .seated (by decide) (by decide)
    omega

/-- Telling the train that somebody has boarded leaves its count of seats. -/
theorem seatsLeft_signalSeat (train : TrainPc) : seatsLeft (signalSeat train) = seatsLeft train := by
  cases train <;> rfl

/-- Telling the train that all have sat down offers no seat. -/
theorem seatsLeft_broadcastPass (train : TrainPc) :
    seatsLeft (broadcastPass train) = seatsLeft train := by
  cases train <;> rfl

/-- A train that wakes up by itself goes on with the seats it had. -/
theorem seatsLeft_wakeTrain {train train' : TrainPc} (h : wakeTrain train = some train') :
    seatsLeft train' = seatsLeft train := by
  cases train <;> cases h <;> rfl

/-- From the test of the loop on, with `count` seats left: a signal uses up one of them. -/
theorem Seated.loadLoop (hcount : 0 ≤ count) (hthrough : letThrough st.passenger + count ≤ n)
    {st' : Station ι} (hstep : loadLoop st count choice = some st') : Seated ⟨st', n⟩ := by
  unfold Threads.loadLoop at hstep
  split at hstep
  · -- one seat is signalled for, whether somebody hears it or not
    rename_i hgo
    obtain ⟨passenger, hsignal, hstep⟩ := Option.bind_eq_some_iff.mp hstep
    obtain rfl := Option.some.inj hstep
    have hone := letThrough_signal hsignal
    refine ⟨?_, ?_⟩
    · show 0 ≤ count - 1
      omega
    · show (letThrough passenger : Int) + (count - 1) ≤ n
      omega
  · obtain rfl := Option.some.inj hstep
    have hnone : seatsLeft (loadDone st).train = 0 := by
      unfold loadDone
      dsimp only
      split <;> rfl
    refine ⟨Int.le_of_eq hnone.symm, ?_⟩
    show (letThrough st.passenger : Int) + seatsLeft (loadDone st).train ≤ n
    omega

/-- The steps of the calls keep the invariant, with the seats that they offer. -/
theorem Seated.call (h : Seated s) {a : StationStep ι} (hstep : stationNext s.station a = some st) :
    Seated ⟨st, s.offered + a.seats⟩ := by
  have hleft := h.left
  have hthrough := h.through
  cases a with
  | arrive i =>
    obtain ⟨hi, hstep⟩ := Option.ite_none_right_eq_some.mp hstep
    obtain rfl := Option.some.inj hstep
    refine ⟨hleft, ?_⟩
    show (letThrough (Function.update s.station.passenger i .waiting) : Int) +
      seatsLeft s.station.train ≤ (s.offered + 0 : Nat)
    rw [letThrough_arrive hi]
    exact hthrough
  -- A passenger who boards takes the seat that was signalled, and the train has as many left.
  | board i =>
    obtain ⟨hi, hstep⟩ := Option.ite_none_right_eq_some.mp hstep
    obtain rfl := Option.some.inj hstep
    refine ⟨?_, ?_⟩
    · show 0 ≤ seatsLeft (signalSeat s.station.train)
      rw [seatsLeft_signalSeat]
      exact hleft
    · show (letThrough (Function.update s.station.passenger i .boarded) : Int) +
        seatsLeft (signalSeat s.station.train) ≤ (s.offered + 0 : Nat)
      rw [letThrough_update hi (Or.inl ⟨rfl, rfl⟩), seatsLeft_signalSeat]
      exact hthrough
  | onBoard i =>
    obtain ⟨hi, hstep⟩ := Option.ite_none_right_eq_some.mp hstep
    obtain rfl := Option.some.inj hstep
    have hsame : seatsLeft (stationOnBoard s.station i).train = seatsLeft s.station.train := by
      unfold stationOnBoard
      dsimp only
      split
      · exact seatsLeft_broadcastPass _
      · rfl
    refine ⟨hsame ▸ hleft, ?_⟩
    show (letThrough (Function.update s.station.passenger i .seated) : Int) +
      seatsLeft (stationOnBoard s.station i).train ≤ (s.offered + 0 : Nat)
    rw [letThrough_update hi (Or.inr ⟨rfl, rfl⟩), hsame]
    exact hthrough
  -- A train brings seats, which are offered.
  | loadTrain count choice =>
    obtain ⟨_, hstep⟩ := Option.ite_none_right_eq_some.mp hstep
    refine Seated.loadLoop (Int.natCast_nonneg count) ?_ hstep
    show (letThrough s.station.passenger : Int) + count ≤ (s.offered + count : Nat)
    omega
  | resumeLoading choice =>
    unfold stationNext at hstep
    cases htrain : s.station.train with
    | sat count =>
      rw [htrain] at hstep hleft hthrough
      exact Seated.loadLoop hleft hthrough hstep
    | _ =>
      rw [htrain] at hstep
      cases hstep
  -- A train that leaves has no seat left, or nobody waits.
  | leave =>
    obtain ⟨hleaving, hstep⟩ := Option.ite_none_right_eq_some.mp hstep
    obtain rfl := Option.some.inj hstep
    rw [hleaving] at hthrough
    exact ⟨Int.le_refl 0, hthrough⟩

/-- Guarded steps keep the invariant of the station. -/
theorem Seated.spuriousNext (h : Seated s) {a : SpuriousStationStep ι} (ha : a.Guarded)
    (hstep : spuriousStationNext s a = some t) : Seated t := by
  cases a with
  | call a =>
    obtain ⟨st, hcall, hstep⟩ := Option.bind_eq_some_iff.mp hstep
    obtain rfl := Option.some.inj hstep
    exact h.call hcall
  | wakePassenger i => exact ha.elim
  | wakeTrain =>
    -- the train goes on with the seats it had
    obtain ⟨train, hwake, hstep⟩ := Option.bind_eq_some_iff.mp hstep
    obtain rfl := Option.some.inj hstep
    have hsame := seatsLeft_wakeTrain hwake
    exact ⟨hsame ▸ h.left, hsame ▸ h.through⟩

/-- The invariant of the station holds wherever guarded steps lead. -/
theorem seated_of_guarded
    (h : ((spuriousStation ι).restrict fun _ a => a.Guarded).Reachable s) : Seated s := by
  refine h.invariant ?_ ?_
  · intro s hs
    subst hs
    exact seated_init
  · rintro s a t hs ⟨ha, hstep⟩
    exact hs.spuriousNext ha hstep

end Stations

/-! ## Both monitors -/

section Both

variable {ι κ υ : Type} [DecidableEq ι] [Fintype ι] [DecidableEq κ] [Fintype κ] [DecidableEq υ]
  [Fintype υ] {s : Reaction ι κ} {t : Offers υ}

/-- **Wake-ups of oxygens and of the train do no harm.** Where only these wake up by themselves, two
hydrogens return for each water at most, and one passenger for each seat that was offered. -/
theorem tolerates_wakeUps
    (hs : ((spuriousReaction ι κ).restrict fun _ a => a.Guarded).Reachable s)
    (ht : ((spuriousStation υ).restrict fun _ a => a.Guarded).Reachable t) :
    atPoint s.hydrogen .returned ≤ 2 * s.water ∧
      atPoint t.station.passenger .boarded + atPoint t.station.passenger .seated ≤ t.offered := by
  have hsignalled := (balanced_of_guarded hs).signalled
  have hleft := (seated_of_guarded ht).left
  have hthrough := (seated_of_guarded ht).through
  unfold letThrough at hthrough
  exact ⟨by omega, by omega⟩

end Both

/-- A state in which an oxygen and the train have just woken up by themselves. -/
theorem tolerates_wakeUps_train : ∃ (s : Reaction (Fin 1) (Fin 1)) (t : Offers (Fin 1)),
    s.oxygen 0 = .woken ∧ t.station.train = .sat 0 ∧
      atPoint s.hydrogen .returned ≤ 2 * s.water ∧
      atPoint t.station.passenger .boarded + atPoint t.station.passenger .seated ≤ t.offered := by
  have hguardedO : ∀ a ∈ ([.call (.enterO 0 none none), .wakeO 0] :
      List (SpuriousReactionStep (Fin 1) (Fin 1))), ∀ _ : Reaction (Fin 1) (Fin 1), a.Guarded := by
    simp [SpuriousReactionStep.Guarded]
  have hguardedTrain : ∀ a ∈ ([.call (.arrive 0), .call (.loadTrain 1 (some 0)), .wakeTrain] :
      List (SpuriousStationStep (Fin 1))), ∀ _ : Offers (Fin 1), a.Guarded := by
    simp [SpuriousStationStep.Guarded]
  have hreaction : ∃ s, ([.call (.enterO 0 none none), .wakeO 0] :
      List (SpuriousReactionStep (Fin 1) (Fin 1))).foldlM spuriousReactionNext reactionInit =
        some s ∧ s.oxygen 0 = .woken := ⟨_, rfl, rfl⟩
  have hstation : ∃ t, ([.call (.arrive 0), .call (.loadTrain 1 (some 0)), .wakeTrain] :
      List (SpuriousStationStep (Fin 1))).foldlM spuriousStationNext ⟨stationInit, 0⟩ = some t ∧
        t.station.train = .sat 0 := ⟨_, rfl, rfl⟩
  obtain ⟨s, hs, hwoken⟩ := hreaction
  obtain ⟨t, ht, hsat⟩ := hstation
  exact ⟨s, t, hwoken, hsat, tolerates_wakeUps
    ⟨_, _, rfl, (Lts.run_ofFun.mpr hs).restrict hguardedO⟩
    ⟨_, _, rfl, (Lts.run_ofFun.mpr ht).restrict hguardedTrain⟩⟩

/-- A hydrogen that wakes up by itself returns without water, and a passenger boards without a
train. -/
theorem wakeUps_break :
    (∃ s, (spuriousReaction (Fin 1) (Fin 1)).Reachable s ∧
      2 * s.water < atPoint s.hydrogen .returned) ∧
    ∃ t, (spuriousStation (Fin 1)).Reachable t ∧
      t.offered < atPoint t.station.passenger .boarded + atPoint t.station.passenger .seated := by
  have hreaction : ∃ s, ([.call (.enterH 0 none), .wakeH 0, .call (.returnH 0)] :
      List (SpuriousReactionStep (Fin 1) (Fin 1))).foldlM spuriousReactionNext reactionInit =
        some s ∧ s.water = 0 ∧ atPoint s.hydrogen .returned = 1 := ⟨_, rfl, rfl, by decide⟩
  have hstation : ∃ t, ([.call (.arrive 0), .wakePassenger 0, .call (.board 0)] :
      List (SpuriousStationStep (Fin 1))).foldlM spuriousStationNext ⟨stationInit, 0⟩ = some t ∧
        t.offered = 0 ∧ atPoint t.station.passenger .boarded = 1 := ⟨_, rfl, rfl, by decide⟩
  obtain ⟨s, hs, hwater, hreturned⟩ := hreaction
  obtain ⟨t, ht, hoffered, hboarded⟩ := hstation
  exact ⟨⟨s, ⟨_, _, rfl, Lts.run_ofFun.mpr hs⟩, by omega⟩,
    ⟨t, ⟨_, _, rfl, Lts.run_ofFun.mpr ht⟩, by omega⟩⟩

end OsLab.Threads
