import OsLab.Disks.Precise

/-!
# One run beside the other

As long as both windows end with the same request, a run of `disk-precise.py` under BSATF is a run
of `disk.py` in which only the number that is kept as the window differs.

* **`withWindow`** -- the disk with another window; all but `getWindow` pass it on unchanged.
* **`batchEnd`**, **`clippedWindow`**, **`SameEnd`** -- the two windows as functions of the number
  of decisions, and when they end alike.
* **`Ready.getNextIo_kept`**, **`InFlight.animate_kept`** -- a decision and a tick, made with either
  window.
* **`shadow_of_reachable`** -- so each run of `disk-precise.py` has one of `disk.py` beside it.
-/

namespace OsLab.Disks

namespace Disk

variable {d d' : Disk} {est : Block → Rat} {i k w : Nat} {y : Int}

/-! ## Another window -/

/-- The disk with another window. -/
def withWindow (y : Int) (d : Disk) : Disk := { d with currWindow := y }

/-- Switching the state has nothing to do with the window. The same goes for the plan of a seek, a
late request and the first two parts of a tick. -/
theorem switchState_withWindow (y : Int) (d : Disk) (state : State) :
    (d.withWindow y).switchState state = (d.switchState state).map (withWindow y) := by
  unfold switchState
  show (index d.requestState d.currentIndex >>= _) =
    (index d.requestState d.currentIndex >>= _).map _
  cases index d.requestState d.currentIndex <;> rfl

theorem planSeek_withWindow (y : Int) (d : Disk) (track : Nat) :
    (d.withWindow y).planSeek track = (d.planSeek track).map (withWindow y) := by
  unfold planSeek
  rw [switchState_withWindow]
  cases d.switchState .seek with
  | error e => rfl
  | ok d₁ =>
    show (if track = d₁.armTrack then (d₁.withWindow y).switchState .rotate
      else .ok { d₁.withWindow y with armTarget := track }) =
      (if track = d₁.armTrack then d₁.switchState .rotate
        else .ok { d₁ with armTarget := track }).map (withWindow y)
    split
    · exact switchState_withWindow y d₁ .rotate
    · rfl

theorem addLate_withWindow (y : Int) (d : Disk) :
    (d.withWindow y).addLate = d.addLate.withWindow y := by
  have hnext : (d.withWindow y).lateRequests[(d.withWindow y).lateCount]? =
      d.lateRequests[d.lateCount]? := rfl
  unfold addLate
  rw [hnext]
  cases d.lateRequests[d.lateCount]? <;> rfl

theorem seekEnds_withWindow (y : Int) (d : Disk) (tick : Tick) :
    (d.withWindow y).seekEnds tick = (d.seekEnds tick).map (withWindow y) := by
  unfold seekEnds
  show (if d.state = .seek ∧ tick.seekDone then _ else _) = _
  split
  · exact switchState_withWindow y { d with armTrack := d.armTarget } .rotate
  · rfl

theorem rotationEnds_withWindow (y : Int) (d : Disk) (tick : Tick) :
    (d.withWindow y).rotationEnds tick = (d.rotationEnds tick).map (withWindow y) := by
  unfold rotationEnds
  show (if d.state = .rotate ∧ tick.rotationDone then _ else _) = _
  split
  · exact switchState_withWindow y d .xfer
  · rfl

theorem arrive_withWindow (y : Int) (d : Disk) (tick : Tick) :
    (d.withWindow y).arrive tick = (d.arrive tick).map (withWindow y) := by
  unfold arrive
  rw [seekEnds_withWindow]
  cases d.seekEnds tick with
  | error e => rfl
  | ok d₁ => exact rotationEnds_withWindow y d₁ tick

/-- `DoSATF` does not look at the window either: it is handed the slice. -/
theorem satfLoop_withWindow (y : Int) (d : Disk) (rList : List (Block × Nat)) (minEst : Rat)
    (minBlock : Block) (minIndex : Option Nat) :
    (d.withWindow y).satfLoop est rList minEst minBlock minIndex =
      d.satfLoop est rList minEst minBlock minIndex := by
  induction rList generalizing minEst minBlock minIndex with
  | nil => rfl
  | cons e rList ih =>
    unfold satfLoop
    simp only [ih]
    rfl

theorem doSATF_withWindow (y : Int) (d : Disk) (rList : List (Block × Nat)) :
    (d.withWindow y).doSATF est rList = d.doSATF est rList := by
  unfold doSATF
  rw [satfLoop_withWindow]

/-- In batches the window stays while a transfer ends. -/
theorem endTransfer_withWindow (hfair : d.fairWindow ≠ -1) (y : Int) :
    (d.withWindow y).endTransfer = d.endTransfer.map (withWindow y) := by
  unfold endTransfer
  rw [switchState_withWindow]
  cases hdone : d.switchState .done with
  | error e => rfl
  | ok d₁ =>
    have hfair' : d₁.fairWindow ≠ -1 := by
      rw [switchState_frame hdone]
      exact hfair
    have hstays : ∀ z : Int, updateWindow { (d₁.withWindow z) with
        requestCount := d₁.requestCount + 1
        served := d₁.served ++ d₁.currentIndex.toList } = { (d₁.withWindow z) with
        requestCount := d₁.requestCount + 1
        served := d₁.served ++ d₁.currentIndex.toList } :=
      fun z => if_neg fun hslides => hfair' hslides.1
    show Except.ok (updateWindow { (d₁.withWindow y) with
        requestCount := d₁.requestCount + 1
        served := d₁.served ++ d₁.currentIndex.toList }) =
      Except.ok (withWindow y (updateWindow { (d₁.withWindow d₁.currWindow) with
        requestCount := d₁.requestCount + 1
        served := d₁.served ++ d₁.currentIndex.toList }))
    rw [hstays, hstays]
    rfl

/-! ## The windows -/

/-- The end of the batch that `k` is in. -/
def batchEnd (w k : Nat) : Nat := w * (k / w + 1)

/-- The window of `disk-precise.py` at decision `k`. -/
def clippedWindow (initial late w : Nat) : Nat → Nat
  | 0 => w
  | k + 1 =>
    if (k + 1) % w = 0 then
      min (clippedWindow initial late w k + w) (initial + min (k + 1) late)
    else
      clippedWindow initial late w k

/-- At decision `k` both windows end with the same request. -/
def SameEnd (initial late w k : Nat) : Prop :=
  min (clippedWindow initial late w k) (initial + min k late) =
    min (batchEnd w k) (initial + min k late)

/-- From one decision to the next the end of the batch moves on by a batch where one is full. -/
theorem batchEnd_succ (w k : Nat) :
    batchEnd w (k + 1) = if (k + 1) % w = 0 then batchEnd w k + w else batchEnd w k := by
  have h := batch (k + 1) w
  unfold batchEnd
  rw [Nat.add_sub_cancel] at h
  by_cases hends : (k + 1) % w = 0
  · rw [if_pos ⟨Nat.succ_pos k, hends⟩] at h
    rw [if_pos hends, h]
  · rw [if_neg fun hboth => hends hboth.2] at h
    rw [if_neg hends, h]

/-- Where a batch ends, its end is the number of the next decision. -/
theorem batchEnd_of_mod (hw : 0 < w) (h : (k + 1) % w = 0) : batchEnd w k = k + 1 := by
  obtain ⟨m, hm⟩ := Nat.dvd_of_mod_eq_zero h
  have hpos : 0 < m := by
    rcases Nat.eq_zero_or_pos m with rfl | hpos
    · omega
    · exact hpos
  obtain ⟨m, rfl⟩ : ∃ j, m = j + 1 := ⟨m - 1, by omega⟩
  have hdiv : k / w = m := by
    rw [Nat.mul_add, Nat.mul_one] at hm
    refine Nat.div_eq_of_lt_le ?_ ?_
    · rw [Nat.mul_comm]
      omega
    · rw [Nat.add_mul, Nat.mul_comm]
      omega
  unfold batchEnd
  rw [hdiv, hm]

theorem batchEnd_of_lt (h : k < w) : batchEnd w k = w := by
  unfold batchEnd
  rw [Nat.div_eq_of_lt h, Nat.zero_add, Nat.mul_one]

section Ends

variable {initial late : Nat}

theorem clippedWindow_of_lt (h : k < w) : clippedWindow initial late w k = w := by
  induction k with
  | zero => rfl
  | succ k ih =>
    unfold clippedWindow
    rw [if_neg, ih (by omega)]
    rw [Nat.mod_eq_of_lt h]
    exact Nat.succ_ne_zero k

/-- In the first batch no window has been cut. -/
theorem sameEnd_of_lt (h : k < w) : SameEnd initial late w k := by
  unfold SameEnd
  rw [clippedWindow_of_lt h, batchEnd_of_lt h]

/-- The cut does no harm where no batch goes past the queue, or no request comes after the first
batch. -/
theorem sameEnd (hw : 0 < w) (h : w ≤ initial ∨ late ≤ w) (k : Nat) :
    SameEnd initial late w k := by
  -- a window that has been cut was cut to the whole queue
  have hcases : clippedWindow initial late w k = batchEnd w k ∨
      clippedWindow initial late w k = initial + late ∧ initial + late ≤ batchEnd w k := by
    induction k with
    | zero => exact Or.inl (batchEnd_of_lt hw).symm
    | succ k ih =>
      rw [batchEnd_succ]
      unfold clippedWindow
      by_cases hends : (k + 1) % w = 0
      · have hend := batchEnd_of_mod hw hends
        have hle : w ≤ k + 1 := Nat.le_of_dvd (Nat.succ_pos k) (Nat.dvd_of_mod_eq_zero hends)
        rw [if_pos hends, if_pos hends]
        omega
      · rw [if_neg hends, if_neg hends]
        exact ih
  unfold SameEnd
  omega

/-- With few initial requests the window is cut at the end of the first batch, to the queue of that
moment. -/
theorem clippedWindow_end (hw : 0 < w) (hfew : initial < w) (hlate : w < late) :
    clippedWindow initial late w w = initial + w := by
  obtain ⟨j, rfl⟩ : ∃ j, w = j + 1 := ⟨w - 1, by omega⟩
  unfold clippedWindow
  rw [if_pos (Nat.mod_self _), clippedWindow_of_lt (Nat.lt_succ_self j)]
  omega

theorem sameEnd_of_le (hw : 0 < w) (hfew : initial < w) (hlate : w < late) (h : k ≤ w) :
    SameEnd initial late w k := by
  rcases Nat.lt_or_eq_of_le h with hlt | rfl
  · exact sameEnd_of_lt hlt
  · have hbatch : batchEnd k k = k + k := by
      unfold batchEnd
      rw [Nat.div_self hw, Nat.mul_add, Nat.mul_one]
    unfold SameEnd
    rw [clippedWindow_end hw hfew hlate, hbatch]
    omega

/-- Then the next request is not in it, though the batch that it belongs to has begun. -/
theorem clippedWindow_next (hw : 1 < w) (hfew : initial < w) (hlate : w < late) :
    clippedWindow initial late w (w + 1) = initial + w ∧
      initial + w < min (batchEnd w (w + 1)) (initial + min (w + 1) late) := by
  have hmod : (w + 1) % w ≠ 0 := by
    rw [Nat.add_mod_left, Nat.mod_eq_of_lt hw]
    exact Nat.one_ne_zero
  have hself : batchEnd w w = w + w := by
    unfold batchEnd
    rw [Nat.div_self (by omega), Nat.mul_add, Nat.mul_one]
  rw [batchEnd_succ, if_neg hmod, hself]
  constructor
  · show (if (w + 1) % w = 0 then _ else _) = _
    rw [if_neg hmod]
    exact clippedWindow_end (by omega) hfew hlate
  · omega

end Ends

section Runs

variable {c : Config} {initial : List Int} {l : Layout} {p : Disk}

theorem map_map {α β γ : Type} (f : α → β) (g : β → γ) (x : Except Abort α) :
    x.map (fun a => g (f a)) = (x.map f).map g := by
  cases x <;> rfl

/-! ## One decision in batches -/

/-- BSATF with batches of `w`. -/
structure InBatches (c : Config) (w : Nat) : Prop where
  policy : c.policy = .BSATF
  pos : 0 < w
  window : c.window = w

/-- The window that `disk-precise.py` keeps from decision `k` on. -/
def keptWindow (c : Config) (initial : List Int) (w k : Nat) : Int :=
  clippedWindow initial.length (makeRequests c.lateAddr).length w k

/-- At decision `k` both windows end with the same request. -/
def SameEndAt (c : Config) (initial : List Int) (w k : Nat) : Prop :=
  SameEnd initial.length (makeRequests c.lateAddr).length w k

theorem InBatches.one_le (hb : InBatches c w) : 1 ≤ c.window := by
  have hpos := hb.pos
  rw [hb.window]
  omega

/-- `disk.py` looks to the end of the batch, and keeps that number as its window. -/
theorem Ready.getWindow_batch (h : Ready c initial d) (hb : InBatches c w)
    (hmore : d.served.length < d.requestQueue.length) :
    d.getWindow = (((batchEnd w d.served.length : Nat) : Int),
      d.withWindow (batchEnd w d.served.length)) := by
  have hpos := h.currWindow_pos hb.policy hb.pos hb.window
  have hend := getWindow_end (show -1 < d.currWindow by omega)
  have hw := hb.one_le
  obtain ⟨endIndex, currWindow, hget, _, hafter⟩ := h.getWindow (Or.inr hw) hmore
  rw [hget] at hend
  have hbatch : currWindow = (batchEnd w d.served.length : Nat) := by
    unfold Window at hafter
    rw [if_neg (by omega), if_pos hb.policy, hb.window] at hafter
    unfold batchEnd
    rw [hafter]
    norm_cast
  obtain rfl : endIndex = currWindow := hend
  rw [hget, ← hbatch]
  rfl

/-- `disk-precise.py` moves its window on where a batch is full, and keeps it cut to the queue. -/
theorem Precise.getWindow_eq {y : Nat} (hw : 0 < w) (hfair : d.fairWindow = w)
    (hcount : d.requestCount = k) : Precise.getWindow (d.withWindow y) =
      if k > 0 ∧ k % w = 0 then (((min (y + w) d.requestQueue.length : Nat) : Int),
        d.withWindow (min (y + w) d.requestQueue.length : Nat))
      else ((y : Int), d.withWindow y) := by
  have hfair' : (d.withWindow y).fairWindow ≠ -1 := by
    show d.fairWindow ≠ -1
    omega
  have hy : ¬ (d.withWindow y).currWindow ≤ -1 := by
    show ¬ (y : Int) ≤ -1
    omega
  -- The test is over integers in the program and over natural numbers here.
  have hmod : (d.withWindow y).requestCount > 0 ∧
      ((d.withWindow y).requestCount : Int) % (d.withWindow y).fairWindow = 0 ↔
        k > 0 ∧ k % w = 0 := by
    show d.requestCount > 0 ∧ (d.requestCount : Int) % d.fairWindow = 0 ↔ _
    rw [hcount, hfair]
    norm_cast
  unfold Precise.getWindow
  rw [if_neg hy, if_pos hfair']
  simp only [hmod]
  by_cases hends : k > 0 ∧ k % w = 0
  · -- the window moves on, and is cut
    rw [if_pos hends, if_pos hends]
    have hnext : (d.withWindow y).currWindow + (d.withWindow y).fairWindow =
        ((y + w : Nat) : Int) := by
      show (y : Int) + d.fairWindow = _
      rw [hfair]
      norm_cast
    rw [hnext]
    by_cases hcut : y + w > d.requestQueue.length
    · have hmin : min (y + w) d.requestQueue.length = d.requestQueue.length := by omega
      have hcut' : ((y + w : Nat) : Int) > ((d.withWindow y).requestQueue.length : Int) := by
        show ((y + w : Nat) : Int) > (d.requestQueue.length : Int)
        omega
      rw [if_pos hcut', hmin]
      rfl
    · have hmin : min (y + w) d.requestQueue.length = y + w := by omega
      have hcut' : ¬ ((y + w : Nat) : Int) > ((d.withWindow y).requestQueue.length : Int) := by
        show ¬ ((y + w : Nat) : Int) > (d.requestQueue.length : Int)
        omega
      rw [if_neg hcut', hmin]
      rfl
  · rw [if_neg hends, if_neg hends]
    rfl

theorem Queued.fair (h : Queued c initial d) (hb : InBatches c w) : d.fairWindow = w := by
  have hw := hb.pos
  have hfair := h.fairWindow
  rw [hb.window] at hfair
  rw [hfair, if_pos ⟨hb.policy, by omega⟩]

theorem Queued.fair_ne (h : Queued c initial d) (hb : InBatches c w) : d.fairWindow ≠ -1 := by
  rw [h.fair hb]
  omega

/-- From the window kept by the last decision `disk-precise.py` comes to the one that `keptWindow`
says. -/
theorem Ready.getWindow_kept (h : Ready c initial d) (hb : InBatches c w) :
    Precise.getWindow (d.withWindow (keptWindow c initial w (d.served.length - 1))) =
      (keptWindow c initial w d.served.length,
        d.withWindow (keptWindow c initial w d.served.length)) := by
  unfold keptWindow
  rw [Precise.getWindow_eq hb.pos (h.toQueued.fair hb) h.count, h.queue_length]
  cases hk : d.served.length with
  | zero => rfl
  | succ k =>
    rw [Nat.add_sub_cancel]
    unfold clippedWindow
    by_cases hends : (k + 1) % w = 0
    · rw [if_pos ⟨Nat.succ_pos k, hends⟩, if_pos hends]
      cases k <;> rfl
    · rw [if_neg fun hboth => hends hboth.2, if_neg hends]
      cases k <;> rfl

/-- Both ask `DoSATF` about the same requests, for the cut and the uncut end reach equally far into
the queue. -/
theorem Ready.slice_eq (h : Ready c initial d)
    (hsame : SameEndAt c initial w d.served.length) :
    d.requestQueue.take (keptWindow c initial w d.served.length).toNat =
      d.requestQueue.take
        (if ((batchEnd w d.served.length : Nat) : Int) > d.requestQueue.length then
          (d.requestQueue.length : Int) else (batchEnd w d.served.length : Nat)).toNat := by
  unfold SameEndAt SameEnd at hsame
  rw [← h.queue_length] at hsame
  rw [List.take_eq_take_iff]
  unfold keptWindow
  rw [Int.toNat_natCast, hsame]
  split
  · rw [Int.toNat_natCast]
    omega
  · rw [Int.toNat_natCast]

theorem choose_bsatf {endIndex : Int} {d₁ : Disk} (hpolicy : d.policy = .BSATF)
    (hget : d.getWindow = (endIndex, d₁)) (est : Block → Rat) :
    d.choose est = (d₁.doSATF est (d₁.requestQueue.take
      (if endIndex > d₁.requestQueue.length then (d₁.requestQueue.length : Int)
        else endIndex).toNat)).map fun chosen => (chosen, d₁) := by
  unfold choose
  rw [hpolicy]
  dsimp only
  rw [hget]
  cases d₁.doSATF est (d₁.requestQueue.take
    (if endIndex > d₁.requestQueue.length then (d₁.requestQueue.length : Int)
      else endIndex).toNat) <;> rfl

theorem Precise.choose_bsatf {endIndex : Int} {d₁ : Disk} (hpolicy : d.policy = .BSATF)
    (hget : Precise.getWindow d = (endIndex, d₁)) (est : Block → Rat) :
    Precise.choose d est = (d₁.doSATF est (d₁.requestQueue.take endIndex.toNat)).map
      fun chosen => (chosen, d₁) := by
  unfold Precise.choose
  rw [hpolicy]
  dsimp only
  rw [hget]
  cases d₁.doSATF est (d₁.requestQueue.take endIndex.toNat) <;> rfl

/-- So the choice is the same, and only the window that is left behind differs. -/
theorem Ready.choose_kept (h : Ready c initial d) (hb : InBatches c w)
    (hmore : d.served.length < d.requestQueue.length)
    (hsame : SameEndAt c initial w d.served.length) (est : Block → Rat) :
    Precise.choose (d.withWindow (keptWindow c initial w (d.served.length - 1))) est =
      (d.choose est).map fun r =>
        (r.1, r.2.withWindow (keptWindow c initial w d.served.length)) := by
  have hpolicy : d.policy = .BSATF := h.policy.trans hb.policy
  have hpolicy' : (d.withWindow (keptWindow c initial w (d.served.length - 1))).policy = .BSATF :=
    hpolicy
  rw [choose_bsatf hpolicy (h.getWindow_batch hb hmore),
    Precise.choose_bsatf hpolicy' (h.getWindow_kept hb), doSATF_withWindow, doSATF_withWindow]
  refine (congrArg (fun rList => (d.doSATF est rList).map _) (h.slice_eq hsame)).trans ?_
  exact map_map (fun chosen => (chosen, d.withWindow (batchEnd w d.served.length)))
    (fun r => (r.1, r.2.withWindow (keptWindow c initial w d.served.length))) _

/-! ## One step in batches -/

/-- A decision of `disk-precise.py` with the kept window is that of `disk.py` with another window
behind it. -/
theorem Ready.getNextIo_kept (h : Ready c initial d) (hb : InBatches c w)
    (hsame : SameEndAt c initial w d.served.length) (est : Block → Rat) :
    ∃ y, Precise.getNextIo (d.withWindow (keptWindow c initial w (d.served.length - 1))) est =
        (d.getNextIo est).map (withWindow y) ∧
      ∀ d', d.getNextIo est = .ok d' → d'.isDone = false →
        y = keptWindow c initial w d.served.length := by
  unfold getNextIo Precise.getNextIo
  by_cases hdone : d.requestCount = d.requestQueue.length
  · -- the simulation ends
    rw [if_pos hdone]
    refine ⟨keptWindow c initial w (d.served.length - 1), if_pos hdone, ?_⟩
    rintro d' hd' hgoing
    obtain rfl := Except.ok.inj hd'
    cases hgoing
  · rw [if_neg hdone]
    have hle := h.served_length_le
    have hmore : d.served.length < d.requestQueue.length := by
      have hcount := h.count
      omega
    refine ⟨keptWindow c initial w d.served.length, ?_, fun _ _ _ => rfl⟩
    -- the choice is the same, and nothing after it reads the window
    refine (if_neg hdone).trans ?_
    rw [h.choose_kept hb hmore hsame]
    cases d.choose est with
    | error e => rfl
    | ok r =>
      obtain ⟨⟨block, i⟩, d₁⟩ := r
      show (d₁.layout.blockToTrackMap block >>= _) = (d₁.layout.blockToTrackMap block >>= _).map _
      cases d₁.layout.blockToTrackMap block with
      | error e => rfl
      | ok track =>
        have hseek := planSeek_withWindow (keptWindow c initial w d.served.length)
          { d₁ with currentBlock := block, currentIndex := i } track
        refine (congrArg (fun x : Except Abort Disk => x >>= fun d => pure d.addLate) hseek).trans ?_
        show _ = (planSeek { d₁ with currentBlock := block, currentIndex := i } track >>=
          fun d => pure d.addLate).map _
        cases planSeek { d₁ with currentBlock := block, currentIndex := i } track with
        | error e => rfl
        | ok d₂ => exact congrArg Except.ok (addLate_withWindow _ d₂)

/-- The end of a transfer carries the kept window on to the next decision. -/
theorem InFlight.transferred_kept (h : InFlight c initial d i) (hinitial : initial ≠ [])
    (hb : InBatches c w) (hsame : SameEndAt c initial w (d.served.length + 1)) (est : Block → Rat) :
    ∃ y, Precise.transferred (d.withWindow (keptWindow c initial w d.served.length)) est =
        (d.transferred est).map (withWindow y) ∧
      ∀ d', d.transferred est = .ok d' → d'.isDone = false →
        y = keptWindow c initial w (d.served.length + 1) := by
  have hw := hb.one_le
  have hfair := h.toQueued.fair_ne hb
  have hready := h.serve hinitial (Or.inr hw)
  have hlength := afterTransfer_length d i
  rw [← hlength] at hsame
  obtain ⟨y, hnext, hy⟩ := hready.getNextIo_kept hb hsame est
  rw [hlength, Nat.add_sub_cancel] at hnext
  rw [hlength] at hy
  have hprecise : Precise.transferred (d.withWindow (keptWindow c initial w d.served.length)) est =
      ((d.afterTransfer i).getNextIo est).map (withWindow y) >>= fun next =>
        next.follows d.currentBlock next.currentBlock >>= fun stays =>
          if stays then next.switchState .xfer else return next := by
    unfold Precise.transferred
    rw [endTransfer_withWindow hfair, h.endTransfer_eq]
    show (Precise.getNextIo ((d.afterTransfer i).withWindow _) est >>= _) = _
    rw [hnext]
    rfl
  refine ⟨y, ?_, ?_⟩
  · rw [hprecise, h.transferred_eq]
    cases (d.afterTransfer i).getNextIo est with
    | error e => rfl
    | ok d₁ =>
      show (d₁.follows d.currentBlock d₁.currentBlock >>= _) =
        (d₁.follows d.currentBlock d₁.currentBlock >>= _).map _
      cases d₁.follows d.currentBlock d₁.currentBlock with
      | error e => rfl
      | ok stays =>
        cases stays with
        | false => rfl
        | true => exact switchState_withWindow y d₁ .xfer
  · intro d' hd' hgoing
    rw [h.transferred_eq] at hd'
    obtain ⟨d₁, hd₁, hd'⟩ := bind_eq_ok.mp hd'
    obtain ⟨stays, _, hd'⟩ := bind_eq_ok.mp hd'
    apply hy d₁ hd₁
    -- staying in transfer does not end the simulation
    split at hd'
    · rw [switchState_frame hd'] at hgoing
      exact hgoing
    · obtain rfl := Except.ok.inj hd'
      exact hgoing

/-- A tick of `disk-precise.py` beside one of `disk.py`: the same disk, up to the window. -/
theorem InFlight.animate_kept (h : InFlight c initial d i) (hinitial : initial ≠ [])
    (hb : InBatches c w) (hsame : SameEndAt c initial w (d.served.length + 1)) (tick : Tick) :
    ∃ y, Precise.animate (d.withWindow (keptWindow c initial w d.served.length)) tick =
        (d.animate tick).map (withWindow y) ∧
      ∀ d', d.animate tick = .ok d' → d'.isDone = false →
        y = keptWindow c initial w d'.served.length := by
  have hw := hb.one_le
  obtain ⟨d₁, harrive, h₁, _, _, hserved, _⟩ := h.arrive_eq tick
  rw [← hserved] at hsame
  unfold Precise.animate
  rw [animate_bind, arrive_withWindow, harrive]
  by_cases hends : d₁.state = .xfer ∧ tick.transferDone = true
  · obtain ⟨y, htransferred, hy⟩ := h₁.transferred_kept hinitial hb hsame tick.est
    rw [hserved] at htransferred hy
    refine ⟨y, ?_, ?_⟩
    · refine Eq.trans ?_ (htransferred.trans (congrArg _ (if_pos hends).symm))
      exact if_pos hends
    · intro d' hd' hgoing
      have hd'' : d₁.transferred tick.est = .ok d' := (if_pos hends).symm.trans hd'
      obtain ⟨_, _, hserved'⟩ := h₁.transferred_cases hinitial (Or.inr hw) hd''
      rw [hserved', List.length_append, List.length_singleton, hserved]
      exact hy d' hd'' hgoing
  · refine ⟨keptWindow c initial w d.served.length, ?_, ?_⟩
    · refine Eq.trans ?_ (congrArg _ (if_neg hends).symm)
      exact if_neg hends
    · intro d' hd' _
      obtain rfl : d₁ = d' := Except.ok.inj ((if_neg hends).symm.trans hd')
      rw [hserved]

/-! ## Runs in batches -/

/-- `disk-precise.py` beside `disk.py`. -/
def Shadows (c : Config) (initial : List Int) (w : Nat) (d p : Disk) : Prop :=
  ∃ y, p = d.withWindow y ∧ (d.isDone = false → y = keptWindow c initial w d.served.length)

/-- The window that a new disk has. -/
theorem fresh_kept (hb : InBatches c w) : (fresh c l initial).withWindow
    (keptWindow c initial w ((fresh c l initial).served.length - 1)) = fresh c l initial := by
  show { fresh c l initial with currWindow := (w : Int) } = _
  rw [← hb.window]
  rfl

theorem start_served (hvalid : ValidConfig c l)
    (hinitial : (makeRequests c.addr).mapM Block.toInt = .ok initial) (hne : initial ≠ [])
    (hstart : start c est = .ok d) : d.served = [] := by
  rw [start_eq hvalid.window (new_ok hvalid.layout hinitial)] at hstart
  exact (ready_fresh.getNextIo_cases hne hvalid.window hstart).1

/-- Both programs start alike. -/
theorem start_kept (hvalid : ValidConfig c l)
    (hinitial : (makeRequests c.addr).mapM Block.toInt = .ok initial) (hb : InBatches c w)
    (est : Block → Rat) : ∃ y, Precise.start c est = (start c est).map (withWindow y) ∧
      ∀ d, start c est = .ok d → d.isDone = false → y = keptWindow c initial w 0 := by
  have hnew := new_ok hvalid.layout hinitial
  have hone := hb.one_le
  have hw : c.window ≠ 0 := by omega
  have hsame : SameEndAt c initial w (fresh c l initial).served.length := sameEnd_of_lt hb.pos
  obtain ⟨y, hnext, hy⟩ := ready_fresh.getNextIo_kept hb hsame est
  rw [fresh_kept hb] at hnext
  refine ⟨y, ?_, ?_⟩
  · unfold Precise.start
    rw [if_neg hw, start_eq hvalid.window hnew, hnew]
    exact hnext
  · intro d hd
    rw [start_eq hvalid.window hnew] at hd
    exact hy d hd

/-- For each state of `disk-precise.py` there is one of `disk.py` that differs from it in the window
alone. -/
theorem shadow_of_reachable (hvalid : ValidConfig c l)
    (hinitial : (makeRequests c.addr).mapM Block.toInt = .ok initial) (hne : initial ≠ [])
    (hb : InBatches c w)
    (hsame : ∀ d, (simulation c).Reachable d → d.isDone = false →
      SameEndAt c initial w (d.served.length + 1))
    (h : (Precise.simulation c).Reachable p) :
    ∃ d, (simulation c).Reachable d ∧ Shadows c initial w d p := by
  refine h.invariant (I := fun p => ∃ d, (simulation c).Reachable d ∧ Shadows c initial w d p) ?_ ?_
  · rintro p ⟨est, hstart⟩
    -- Both simulators start alike, or abort alike.
    obtain ⟨y, heq, hy⟩ := start_kept hvalid hinitial hb est
    rw [heq] at hstart
    cases hd : start c est with
    | error e =>
      rw [hd] at hstart
      cases hstart
    | ok d =>
      rw [hd] at hstart
      obtain rfl := Except.ok.inj hstart
      refine ⟨d, Lts.Reachable.of_init ⟨est, hd⟩, y, rfl, fun hgoing => ?_⟩
      rw [start_served hvalid hinitial hne hd]
      exact hy d hd hgoing
  · rintro p tick p' ⟨d, hreach, y, rfl, hy⟩ ⟨hgoing, htick⟩
    have hgoing' : d.isDone = false := hgoing
    obtain rfl := hy hgoing'
    obtain ⟨_, hfinished | ⟨i, hflight⟩⟩ := going_reachable hvalid hinitial hne hreach
    · rw [hfinished.done] at hgoing'
      cases hgoing'
    · -- what one does in a tick, the other does
      obtain ⟨y', heq, hy'⟩ := hflight.animate_kept hne hb (hsame d hreach hgoing') tick
      rw [heq] at htick
      cases hd : d.animate tick with
      | error e =>
        rw [hd] at htick
        cases htick
      | ok d' =>
        rw [hd] at htick
        obtain rfl := Except.ok.inj htick
        exact ⟨d', hreach.step ⟨hgoing', hd⟩, y', rfl, hy' d' hd⟩

end Runs

end Disk

end OsLab.Disks
