import OsLab.Disks.Machine

/-!
# What a tick of the machine does

The ways through `GetNextIO` and through each part of `Animate`, with what they leave. Everything
about the phases is derived from these, and none of the functions is unfolded again.

* **`getNextIo_cases`** -- all is done, or a block that has been estimated is waited for, or the arm
  sets out for it.
* **`seeking_cases`**, **`rotating_cases`**, **`transferring_cases`** -- the parts of a tick, by the
  state of the disk and the outcome of the test.
* **`start_cases`**, **`reachable_accepted`** -- what a run starts with, and keeps.
* **`exists_run`** -- how a run is evaluated.
-/

namespace OsLab.Disks

namespace Disk

variable {d d' : Disk}

/-! ## The policy's choice -/

/-- The block that is chosen has been estimated, and the estimate is the one that is returned with
it. -/
theorem satfLoopEst_estimated {est : Block → Except Abort Rat} {rList : List (Block × Nat)}
    {minEst e : Rat} {minBlock block : Block} {minIndex i : Option Nat}
    (h : d.satfLoopEst est rList minEst minBlock minIndex = .ok (e, block, i)) :
    (e, block, i) = (minEst, minBlock, minIndex) ∨
      est block = .ok e ∧ ∃ k, i = some k ∧ (block, k) ∈ rList := by
  induction rList generalizing minEst minBlock minIndex with
  | nil => exact Or.inl (Except.ok.inj h).symm
  | cons entry rList ih =>
    obtain ⟨b, k⟩ := entry
    unfold satfLoopEst at h
    obtain ⟨state, _, h⟩ := bind_eq_ok.mp h
    have hlater : (est block = .ok e ∧ ∃ k', i = some k' ∧ (block, k') ∈ rList) →
        est block = .ok e ∧ ∃ k', i = some k' ∧ (block, k') ∈ (b, k) :: rList :=
      fun ⟨hest, k', hk', hmem⟩ => ⟨hest, k', hk', List.mem_cons_of_mem _ hmem⟩
    split at h
    · exact (ih h).imp_right hlater
    · obtain ⟨totalEst, htotal, h⟩ := bind_eq_ok.mp h
      split at h
      · rcases ih h with heq | hfound
        · -- the entry at the front is the one that stays
          cases heq
          exact Or.inr ⟨htotal, k, rfl, List.mem_cons_self⟩
        · exact Or.inr (hlater hfound)
      · exact (ih h).imp_right hlater

theorem doSATFEst_estimated {est : Block → Except Abort Rat} {rList : List (Block × Nat)}
    {e : Rat} {block : Block} {i : Option Nat} (h : d.doSATFEst est rList = .ok (e, block, i)) :
    est block = .ok e ∧ ∃ k, i = some k ∧ (block, k) ∈ rList := by
  unfold doSATFEst at h
  obtain ⟨⟨e', block', i'⟩, hloop, h⟩ := bind_eq_ok.mp h
  obtain ⟨_, _, h⟩ := bind_eq_ok.mp h
  obtain ⟨_, hindex, h⟩ := bind_eq_ok.mp h
  cases Except.ok.inj h
  rcases satfLoopEst_estimated hloop with heq | hfound
  · -- nothing has been chosen, and the second assertion fails
    cases heq
    rw [assert_eq_ok, decide_eq_true_eq] at hindex
    exact absurd rfl hindex
  · exact hfound

/-- `totalEst` is the estimate for the block that has been chosen, which is an entry of the
queue. -/
theorem chooseEst_cases {est : Block → Except Abort Rat} {e : Rat} {block : Block}
    {i : Option Nat} (h : d.chooseEst est = .ok ((e, block, i), d')) :
    est block = .ok e ∧ ∃ currWindow, d' = { d with currWindow := currWindow } := by
  unfold chooseEst at h
  split at h
  · obtain ⟨⟨front, k⟩, hfront, h⟩ := bind_eq_ok.mp h
    obtain ⟨⟨e', block', i'⟩, hsatf, h⟩ := bind_eq_ok.mp h
    cases Except.ok.inj h
    obtain ⟨hest, k', -, hmem⟩ := doSATFEst_estimated hsatf
    -- the list that is looked through has one entry
    rw [index_some_eq_ok] at hfront
    rw [List.take_one, List.head?_drop, hfront, Option.toList_some, List.mem_singleton] at hmem
    cases hmem
    exact ⟨hest, d.currWindow, rfl⟩
  · obtain ⟨chosen, hsatf, h⟩ := bind_eq_ok.mp h
    cases Except.ok.inj h
    exact ⟨(doSATFEst_estimated hsatf).1, getWindow_eq d⟩
  · obtain ⟨chosen, hsatf, h⟩ := bind_eq_ok.mp h
    cases Except.ok.inj h
    exact ⟨(doSATFEst_estimated hsatf).1, getWindow_eq d⟩
  · obtain ⟨trackList, _, h⟩ := bind_eq_ok.mp h
    obtain ⟨chosen, hsatf, h⟩ := bind_eq_ok.mp h
    cases Except.ok.inj h
    exact ⟨(doSATFEst_estimated hsatf).1, getWindow_eq d⟩

theorem addInitial_eq {blocks : List Block} {i : Nat} (h : d.addInitial blocks i = .ok d') :
    ∃ requestQueue requestState,
      d' = { d with requestQueue := requestQueue, requestState := requestState } := by
  induction blocks generalizing d i with
  | nil => exact ⟨_, _, (Except.ok.inj h).symm⟩
  | cons block blocks ih =>
    unfold addInitial at h
    obtain ⟨n, _, h⟩ := bind_eq_ok.mp h
    obtain ⟨requestQueue, requestState, heq⟩ := ih h
    exact ⟨requestQueue, requestState, heq⟩

/-- What a decision leaves of the disk as it was. -/
structure Kept (d d' : Disk) : Prop where
  layout : d'.layout = d.layout
  armTrack : d'.armTrack = d.armTrack
  isDone : d'.isDone = d.isDone
  requestCount : d'.requestCount = d.requestCount

end Disk

namespace Machine

variable {m m' : Machine}

theorem switchState_cases {state : State} (h : m.switchState state = .ok m') :
    ∃ requestState, m' = { m with
      disk := { m.disk with state := state, requestState := requestState } } := by
  unfold switchState at h
  obtain ⟨disk, hdisk, h⟩ := bind_eq_ok.mp h
  cases Except.ok.inj h
  exact ⟨_, congrArg (fun d => { m with disk := d }) (Disk.switchState_frame hdisk)⟩

/-! ## A decision -/

/-- A block on the track under the head is waited for at once. -/
def stay (m : Machine) (disk : Disk) (totalEst : Rat) : Machine :=
  { m with disk := disk, totalEst := totalEst, seekBegin := m.timer, rotBegin := m.timer }

/-- The arm starts for another track. -/
def leave (m : Machine) (disk : Disk) (totalEst : Rat) (track : Nat) : Machine :=
  { m with
    disk := disk
    totalEst := totalEst
    seekBegin := m.timer
    armTargetX1 := spindleX - tracks track - trackWidth / 2
    armSpeed := if track ≥ m.disk.armTrack then m.drive.seekSpeed else -m.drive.seekSpeed }

/-- `GetNextIO` finds that all is done, or chooses a block that it has estimated and waits for it or
sends the arm off. -/
theorem getNextIo_cases (h : m.getNextIo = .ok m') :
    (m.disk.requestCount = m.disk.requestQueue.length ∧
      m' = { m with disk := { m.disk with isDone := true } }) ∨
    ∃ d e track, Disk.Kept m.disk d ∧ m.estimate d.currentBlock = .ok e ∧
      d.layout.blockToTrackMap d.currentBlock = .ok track ∧
      (track = m.disk.armTrack ∧ d.state = .rotate ∧ m' = m.stay d e ∨
        track ≠ m.disk.armTrack ∧ d.state = .seek ∧ d.armTarget = track ∧
          m' = m.leave d e track) := by
  unfold getNextIo at h
  split at h
  · rename_i hall
    exact Or.inl ⟨hall, (Except.ok.inj h).symm⟩
  · obtain ⟨⟨⟨e, block, i⟩, d₁⟩, hchoose, h⟩ := bind_eq_ok.mp h
    obtain ⟨hest, currWindow, rfl⟩ := Disk.chooseEst_cases hchoose
    obtain ⟨track, htrack, h⟩ := bind_eq_ok.mp h
    obtain ⟨m₁, hplan, h⟩ := bind_eq_ok.mp h
    unfold planSeek at hplan
    obtain ⟨d₂, hseek, hplan⟩ := bind_eq_ok.mp hplan
    obtain ⟨requestQueue, requestState', lateCount, hlate⟩ := d₂.addLate_eq
    refine Or.inr ⟨d₂.addLate, e, track, ?_⟩
    rcases Disk.planSeek_cases hseek with ⟨hsame, requestState, hd₂⟩ | ⟨hother, requestState, hd₂⟩
    · rw [if_pos hsame] at hplan
      cases Except.ok.inj hplan
      cases Except.ok.inj h
      rw [hlate, hd₂]
      exact ⟨⟨rfl, rfl, rfl, rfl⟩, hest, htrack, Or.inl ⟨hsame, rfl, rfl⟩⟩
    · rw [if_neg hother] at hplan
      cases Except.ok.inj hplan
      cases Except.ok.inj h
      rw [hlate, hd₂]
      exact ⟨⟨rfl, rfl, rfl, rfl⟩, hest, htrack, Or.inr ⟨hother, rfl, rfl, rfl⟩⟩

/-! ## The parts of a tick -/

/-- `DoneWithSeek` moves the arm. -/
def moved (m : Machine) : Machine := { m with armX1 := m.armX1 + m.armSpeed }

/-- The arm has come to its track. -/
def settled (m : Machine) (requestState : List State) : Machine :=
  { m with
    disk := { m.disk with
      armTrack := m.disk.armTarget, state := .rotate, requestState := requestState }
    rotBegin := m.timer }

/-- The block has come under the head. -/
def begun (m : Machine) (requestState : List State) : Machine :=
  { m with
    disk := { m.disk with state := .xfer, requestState := requestState }
    xferBegin := m.timer }

/-- The first part of a tick: no seek, or the arm moves and is not there yet, or it moves and has
come. -/
theorem seeking_cases (h : m.seeking = .ok m') :
    m.disk.state ≠ .seek ∧ m' = m ∨
    m.disk.state = .seek ∧ m.moved.seekDone = false ∧ m' = m.moved ∨
    m.disk.state = .seek ∧ m.moved.seekDone = true ∧
      ∃ requestState, m' = m.moved.settled requestState := by
  unfold seeking at h
  split at h
  · rename_i hstate
    dsimp only at h
    split at h
    · rename_i hdone
      obtain ⟨requestState, heq⟩ := switchState_cases h
      exact Or.inr (Or.inr ⟨hstate, hdone, requestState, heq⟩)
    · rename_i hnot
      exact Or.inr (Or.inl ⟨hstate, Bool.eq_false_iff.mpr hnot, (Except.ok.inj h).symm⟩)
  · rename_i hstate
    exact Or.inl ⟨hstate, (Except.ok.inj h).symm⟩

/-- What the way to the block leaves as it was. -/
structure Underway (m m' : Machine) : Prop where
  drive : m'.drive = m.drive
  tables : m'.tables = m.tables
  timer : m'.timer = m.timer
  angle : m'.angle = m.angle
  seekBegin : m'.seekBegin = m.seekBegin
  totalEst : m'.totalEst = m.totalEst
  rows : m'.rows = m.rows
  seekTotal : m'.seekTotal = m.seekTotal
  rotTotal : m'.rotTotal = m.rotTotal
  xferTotal : m'.xferTotal = m.xferTotal
  layout : m'.disk.layout = m.disk.layout
  currentBlock : m'.disk.currentBlock = m.disk.currentBlock
  requestCount : m'.disk.requestCount = m.disk.requestCount
  isDone : m'.disk.isDone = m.disk.isDone

theorem seeking_underway (h : m.seeking = .ok m') : m.Underway m' := by
  rcases seeking_cases h with ⟨-, rfl⟩ | ⟨-, -, rfl⟩ | ⟨-, -, requestState, rfl⟩
  · constructor <;> rfl
  · constructor <;> rfl
  · constructor <;> rfl

/-- The second part of a tick: no wait, or the mark is not under the head, or the transfer
begins. -/
theorem rotating_cases (h : m.rotating = .ok m') :
    m.disk.state ≠ .rotate ∧ m' = m ∨
    m.disk.state = .rotate ∧ ∃ target, m.mark (-1) = .ok target ∧
      (m.radiallyCloseTo m.angle target = false ∧ m' = m ∨
        m.radiallyCloseTo m.angle target = true ∧ ∃ requestState, m' = m.begun requestState) := by
  unfold rotating at h
  split at h
  · rename_i hstate
    obtain ⟨target, htarget, h⟩ := bind_eq_ok.mp h
    refine Or.inr ⟨hstate, target, htarget, ?_⟩
    split at h
    · rename_i hclose
      exact Or.inr ⟨hclose, switchState_cases h⟩
    · rename_i hnot
      exact Or.inl ⟨Bool.eq_false_iff.mpr hnot, (Except.ok.inj h).symm⟩
  · rename_i hstate
    exact Or.inl ⟨hstate, (Except.ok.inj h).symm⟩

theorem rotating_underway (h : m.rotating = .ok m') : m.Underway m' := by
  rcases rotating_cases h with ⟨-, rfl⟩ | ⟨-, target, -, ⟨-, rfl⟩ | ⟨-, requestState, rfl⟩⟩
  · constructor <;> rfl
  · constructor <;> rfl
  · constructor <;> rfl

/-- What `DoRequestStats` reads. -/
def row (m : Machine) : Row where
  block := m.disk.currentBlock
  seekBegin := m.seekBegin
  rotBegin := m.rotBegin
  xferBegin := m.xferBegin
  timer := m.timer
  totalEst := m.totalEst

/-- The machine when a transfer has ended, in front of the next decision. -/
def ended (m : Machine) (disk : Disk) : Machine :=
  { m with
    disk := disk
    seekTotal := m.seekTotal + m.row.seekTime
    rotTotal := m.rotTotal + m.row.rotTime
    xferTotal := m.xferTotal + m.row.xferTime
    rows := m.rows ++ [m.row] }

/-- The next block follows at once, and the transfer goes on. -/
def goesOn (m : Machine) (requestState : List State) : Machine :=
  { m with
    disk := { m.disk with state := .xfer, requestState := requestState }
    seekBegin := m.timer
    rotBegin := m.timer
    xferBegin := m.timer }

/-- The end of a transfer: the next decision, by a disk that has counted the request, and the test
whether the transfer goes on. -/
theorem transferred_cases (h : m.transferred = .ok m') :
    ∃ d m₁ stays, d.layout = m.disk.layout ∧ d.armTrack = m.disk.armTrack ∧
      d.isDone = m.disk.isDone ∧ d.requestCount = m.disk.requestCount + 1 ∧
      d.currentBlock = m.disk.currentBlock ∧ (m.ended d).getNextIo = .ok m₁ ∧
      m₁.disk.follows m.disk.currentBlock m₁.disk.currentBlock = .ok stays ∧
      (stays = false ∧ m' = m₁ ∨ stays = true ∧ ∃ requestState, m' = m₁.goesOn requestState) := by
  unfold transferred at h
  obtain ⟨d₁, hdone, h⟩ := bind_eq_ok.mp h
  have hframe := Disk.switchState_frame hdone
  obtain ⟨m₁, hnext, h⟩ := bind_eq_ok.mp h
  obtain ⟨stays, hstays, h⟩ := bind_eq_ok.mp h
  have hblock : d₁.currentBlock = m.disk.currentBlock := by rw [hframe]
  -- `DoRequestStats` comes before the window moves, and reads nothing that the end has changed
  generalize hcounted : ({ d₁ with
    requestCount := d₁.requestCount + 1
    served := d₁.served ++ d₁.currentIndex.toList } : Disk) = counted at hnext hstays
  obtain ⟨currWindow, hwindow⟩ := counted.updateWindow_eq
  have hcurrent : counted.updateWindow.currentBlock = m.disk.currentBlock := by
    rw [hwindow, ← hcounted]
    exact hblock
  have hended : ({ doRequestStats { m with disk := counted } with
      disk := counted.updateWindow } : Machine) = m.ended counted.updateWindow := by
    unfold doRequestStats ended row
    rw [← hblock, ← hcounted]
  refine ⟨counted.updateWindow, m₁, stays, ?_, ?_, ?_, ?_, hcurrent, hended ▸ hnext, ?_, ?_⟩
  · rw [hwindow, ← hcounted, hframe]
  · rw [hwindow, ← hcounted, hframe]
  · rw [hwindow, ← hcounted, hframe]
  · rw [hwindow, ← hcounted, hframe]
  · rw [← hcurrent]
    exact hstays
  · split at h
    · rename_i hyes
      exact Or.inr ⟨hyes, switchState_cases h⟩
    · rename_i hno
      exact Or.inl ⟨Bool.eq_false_iff.mpr hno, (Except.ok.inj h).symm⟩

/-- The third part of a tick: no transfer, or its end is not under the head, or it has ended. -/
theorem transferring_cases (h : m.transferring = .ok m') :
    m.disk.state ≠ .xfer ∧ m' = m ∨
    m.disk.state = .xfer ∧ ∃ target, m.mark 1 = .ok target ∧
      (m.radiallyCloseTo m.angle target = false ∧ m' = m ∨
        m.radiallyCloseTo m.angle target = true ∧ m.transferred = .ok m') := by
  unfold transferring at h
  split at h
  · rename_i hstate
    obtain ⟨target, htarget, h⟩ := bind_eq_ok.mp h
    refine Or.inr ⟨hstate, target, htarget, ?_⟩
    split at h
    · rename_i hclose
      exact Or.inr ⟨hclose, h⟩
    · rename_i hnot
      exact Or.inl ⟨Bool.eq_false_iff.mpr hnot, (Except.ok.inj h).symm⟩
  · rename_i hstate
    exact Or.inl ⟨hstate, (Except.ok.inj h).symm⟩

/-- A tick is its three parts, behind the turn of the platter. -/
theorem animate_parts (h : m.animate = .ok m') : ∃ m₁ m₂, m.turned.seeking = .ok m₁ ∧
    m₁.rotating = .ok m₂ ∧ m₂.transferring = .ok m' := by
  unfold animate at h
  obtain ⟨m₁, hseek, h⟩ := bind_eq_ok.mp h
  obtain ⟨m₂, hrotate, h⟩ := bind_eq_ok.mp h
  exact ⟨m₁, m₂, hseek, hrotate, h⟩

/-! ## The beginning -/

/-- The machine that `__init__` makes. -/
def initial (v : Drive) (t : Tables) (d : Disk) : Machine where
  drive := v
  tables := t
  disk := d
  timer := 0
  angle := 0
  armX1 := spindleX - tracks 0 - armWidth
  armTargetX1 := 0
  armSpeed := v.seekSpeed
  seekBegin := 0
  rotBegin := 0
  xferBegin := 0
  seekTotal := 0
  rotTotal := 0
  xferTotal := 0
  totalEst := 0
  rows := []

/-- A machine that has started was accepted, with tables and an arm over track 0, and has made its
first decision. -/
theorem start_cases {c : Config} {v : Drive} (h : start c v = .ok m) :
    ∃ t d l, Tables.initBlockLayout c.zoning v.skew = .ok t ∧
      initBlockLayout c.zoning = .ok l ∧ checkSeekSpeed v.seekSpeed = .ok () ∧
      Disk.new c = .ok d ∧ d.layout = l ∧ d.armTrack = 0 ∧ d.isDone = false ∧
      d.requestCount = 0 ∧ (initial v t d).getNextIo = .ok m := by
  unfold start at h
  split at h
  · cases h
  · obtain ⟨m₀, hnew, hnext⟩ := bind_eq_ok.mp h
    unfold new at hnew
    obtain ⟨t, htables, hnew⟩ := bind_eq_ok.mp hnew
    obtain ⟨_, hspeed, hnew⟩ := bind_eq_ok.mp hnew
    obtain ⟨d, hdisk, hnew⟩ := bind_eq_ok.mp hnew
    cases Except.ok.inj hnew
    have hdisk' := hdisk
    unfold Disk.new at hdisk'
    obtain ⟨l, hlayout, hdisk'⟩ := bind_eq_ok.mp hdisk'
    obtain ⟨requestQueue, requestState, rfl⟩ := Disk.addInitial_eq hdisk'
    exact ⟨t, _, l, htables, hlayout, hspeed, hdisk, rfl, rfl, rfl, rfl, hnext⟩

/-- A machine that is running has been accepted: its zoning has tables and its speed of the arm has
passed the tests. -/
theorem reachable_accepted {c : Config} {v : Drive} (h : (program c v).Reachable m) :
    ∃ t l, Tables.initBlockLayout c.zoning v.skew = .ok t ∧
      initBlockLayout c.zoning = .ok l ∧ checkSeekSpeed v.seekSpeed = .ok () := by
  obtain ⟨m₀, _, hstart, _⟩ := h
  obtain ⟨t, _, l, ht, hl, hspeed, _⟩ := start_cases hstart
  exact ⟨t, l, ht, hl, hspeed⟩

/-- The loop of `Go` goes along a run, however often it is let round. -/
theorem reachable_loop {c : Config} {v : Drive} (h : (program c v).Reachable m) {n : Nat}
    (hloop : loop n m = .ok m') : (program c v).Reachable m' := by
  induction n generalizing m with
  | zero =>
    cases Except.ok.inj hloop
    exact h
  | succ n ih =>
    unfold loop at hloop
    split at hloop
    · cases Except.ok.inj hloop
      exact h
    · rename_i hgoing
      obtain ⟨m₁, hanimate, hloop⟩ := bind_eq_ok.mp hloop
      exact ih (h.step (a := ()) ⟨Bool.eq_false_iff.mpr hgoing, hanimate⟩) hloop

/-- What a run that is evaluated shows: a machine that can be reached, with a property that can be
decided. -/
theorem exists_run {c : Config} {v : Drive} (n : Nat) {P : Machine → Bool}
    (h : (start c v >>= loop n).map P = .ok true) :
    ∃ m, (program c v).Reachable m ∧ P m = true := by
  cases hrun : start c v >>= loop n with
  | error e =>
    rw [hrun] at h
    cases h
  | ok m =>
    rw [hrun] at h
    obtain ⟨m₀, hstart, hloop⟩ := bind_eq_ok.mp hrun
    exact ⟨m, reachable_loop (Lts.Reachable.of_init hstart) hloop, Except.ok.inj h⟩

end Machine

end OsLab.Disks
