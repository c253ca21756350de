import OsLab.Disks.Mechanics
import OsLab.Lib.Linked

/-!
# The phases of a request

Between ticks the arm is on its way, or the disk waits for a block, or it transfers one; each phase
says what the tests have not found so far. A row is written when the last of them has been passed,
and then says at which ticks each was.

* **`Seeking`**, **`Rotating`**, **`Transferring`**, **`Flies`** -- the phases, each with what has
  been tested up to now.
* **`Row.Waited`**, **`Row.WentOn`**, **`Row.Course`** -- what a row says about its request: it was
  waited for, or the transfer went on from the one before.
* **`Seeking.seeking`**, **`Rotating.rotating`**, **`Transferring.transferring`** -- what each part
  of a tick does in its own phase; in the others it does nothing.
* **`OnCourse`**, **`OnCourse.animate`**, **`onCourse`** -- the invariant of a run, its step, and
  all reachable machines.
* **`OnCourse.course_at`** -- what a row of a run says about its request.
-/

namespace OsLab.Disks

open Revolution (First NotYet)

/-! ## Rows -/

/-- The track on which the arm is when a request is chosen. -/
def Origin (S : Setup) : Option Row → Nat → Prop
  | none, origin => origin = 0
  | some row, origin => S.layout.blockToTrackMap row.block = .ok origin

/-- `b` comes under the head right after `a`. -/
def Layout.Next (l : Layout) (a b : Block) : Prop :=
  ∃ track first last i j, l.blockToTrackMap a = .ok track ∧ l.blockToTrackMap b = .ok track ∧
    l.tracksBeginEnd track = .ok (first, last) ∧ a = .int i ∧ b = .int j ∧
    (i = last ∧ j = first ∨ i + 1 = j)

/-- The first tick that looks for the block. Without a seek it is the one after the decision. -/
def lookFrom (p : Place) (origin rotBegin : Nat) : Nat :=
  if p.track = origin then rotBegin + 1 else rotBegin

/-- The block has been waited for on its track. -/
structure Row.Waited (S : Setup) (n : Nat) (prev : Option Row) (p : Place) (origin : Nat)
    (row : Row) : Prop where
  apart : ∀ before, prev = some before → ¬S.layout.Next before.block row.block
  rotBegin : row.rotBegin = row.seekBegin + n * p.dist origin
  xferBegin : First (Passes S.drive (p.mark (-1))) (lookFrom p origin row.rotBegin) row.xferBegin

/-- The transfer has gone on from the one before. -/
structure Row.WentOn (S : Setup) (prev : Option Row) (p : Place) (origin : Nat) (row : Row) :
    Prop where
  next : ∃ before, prev = some before ∧ S.layout.Next before.block row.block
  track : p.track = origin
  rotBegin : row.rotBegin = row.seekBegin
  xferBegin : row.xferBegin = row.seekBegin

/-- The course of a request behind the one of `prev`. -/
structure Row.Course (S : Setup) (n : Nat) (prev : Option Row) (p : Place) (origin : Nat)
    (row : Row) : Prop where
  lies : Lies S row.block p
  arm : Origin S prev origin
  estimate : row.totalEst = p.estimate S.drive origin (S.drive.angle row.seekBegin)
  came : row.Waited S n prev p origin ∧
      First (Passes S.drive (p.mark 1)) row.xferBegin row.timer ∨
    row.WentOn S prev p origin ∧
      First (Passes S.drive (p.mark 1)) (row.xferBegin + 1) row.timer

namespace Machine

variable {S : Setup} {m m' : Machine} {n origin : Nat} {p : Place}

/-! ## The request in flight -/

structure Decided (S : Setup) (p : Place) (origin : Nat) (m : Machine) : Prop where
  setup : m.setup = S
  turns : m.Turns
  lies : Lies S m.disk.currentBlock p
  arm : Origin S (lastOr none m.rows) origin
  estimate : m.totalEst = p.estimate S.drive origin (S.drive.angle m.seekBegin)

/-- The arm is on its way. -/
structure Seeking (n : Nat) (p : Place) (origin : Nat) (m : Machine) : Prop where
  state : m.disk.state = .seek
  other : p.track ≠ origin
  armTarget : m.disk.armTarget = p.track
  armTargetX1 : m.armTargetX1 = rest p.track
  armSpeed : m.armSpeed = speed m.drive origin p.track
  moving : ∃ k < n * p.dist origin, m.timer = m.seekBegin + k ∧
    m.armX1 = rest origin + k * m.armSpeed

/-- Up to `now` the tests have not found the beginning of the block. -/
structure Rotating (S : Setup) (n : Nat) (p : Place) (origin now : Nat) (m : Machine) :
    Prop where
  state : m.disk.state = .rotate
  armTrack : m.disk.armTrack = p.track
  armX1 : m.armX1 = rest p.track
  apart : ∀ before, lastOr none m.rows = some before →
    ¬S.layout.Next before.block m.disk.currentBlock
  rotBegin : m.rotBegin = m.seekBegin + n * p.dist origin
  notYet : NotYet (Passes S.drive (p.mark (-1))) (lookFrom p origin m.rotBegin) now

/-- Up to `now` the tests have not found the end of the block. -/
structure Transferring (S : Setup) (n : Nat) (p : Place) (origin now : Nat) (m : Machine) :
    Prop where
  state : m.disk.state = .xfer
  armTrack : m.disk.armTrack = p.track
  armX1 : m.armX1 = rest p.track
  came : m.row.Waited S n (lastOr none m.rows) p origin ∧
      NotYet (Passes S.drive (p.mark 1)) m.xferBegin now ∨
    m.row.WentOn S (lastOr none m.rows) p origin ∧
      NotYet (Passes S.drive (p.mark 1)) (m.xferBegin + 1) now

/-- A request in flight, with all that has been tested up to now. -/
def Flies (S : Setup) (n : Nat) (m : Machine) : Prop :=
  ∃ p origin, m.Decided S p origin ∧
    (m.Seeking n p origin ∨ m.Rotating S n p origin (m.timer + 1) ∨
      m.Transferring S n p origin (m.timer + 1))

theorem drive_eq (h : m.setup = S) : m.drive = S.drive := congrArg Setup.drive h

theorem layout_eq (h : m.setup = S) : m.disk.layout = S.layout := congrArg Setup.layout h

/-- The timer and the platter have no part in what has been decided. -/
theorem Decided.turned (h : m.Decided S p origin) (hrotate : 0 < S.drive.rotateSpeed) :
    m.turned.Decided S p origin := by
  rw [← drive_eq h.setup] at hrotate
  exact ⟨h.setup, h.turns.turned hrotate, h.lies, h.arm, h.estimate⟩

/-- Neither have the parts of a tick that bring the arm and the block under the head. -/
theorem Decided.underway (h : m.Decided S p origin) (hkept : m.Underway m') :
    m'.Decided S p origin := by
  refine ⟨hkept.setup.trans h.setup, ?_, ?_, ?_, ?_⟩
  · unfold Turns
    rw [hkept.angle, hkept.drive, hkept.timer]
    exact h.turns
  · rw [hkept.currentBlock]
    exact h.lies
  · rw [hkept.rows]
    exact h.arm
  · rw [hkept.totalEst, hkept.seekBegin]
    exact h.estimate

/-- A block on another track does not follow the last one, so the seek has been planned for a
reason. -/
theorem Decided.apart (h : m.Decided S p origin) (hother : p.track ≠ origin) :
    ∀ before, lastOr none m.rows = some before →
      ¬S.layout.Next before.block m.disk.currentBlock := by
  intro before hbefore ⟨track, first, last, i, j, ha, hb, _⟩
  have harm := h.arm
  rw [hbefore] at harm
  have htrack : origin = track := Except.ok.inj (harm.symm.trans ha)
  exact hother ((Except.ok.inj (h.lies.track.symm.trans hb)).trans htrack.symm)

/-! ## A tick -/

/-- The first part of a tick brings the arm one step nearer, or to its track in just the tick that
its way takes. -/
theorem Seeking.seeking (h : m.Seeking n p origin) (hd : m.Decided S p origin)
    (hpaced : Paced S.drive n) (hseeking : m.turned.seeking = .ok m') :
    m'.Seeking n p origin ∨ m'.Rotating S n p origin m'.timer := by
  obtain ⟨k, hk, htimer, harm⟩ := h.moving
  have hpaced' : Paced m.turned.moved.drive n := by
    show Paced m.drive n
    rw [drive_eq hd.setup]
    exact hpaced
  have harm' : m.turned.moved.armX1 = rest origin + (k + 1 : Nat) * m.turned.moved.armSpeed := by
    show m.armX1 + m.armSpeed = rest origin + (k + 1 : Nat) * m.armSpeed
    rw [harm, Nat.cast_succ]
    ring
  have hdone := seekDone_iff hpaced' h.armTargetX1 h.armSpeed harm'
  rcases seeking_cases hseeking with ⟨hnot, -⟩ | ⟨-, hnot, rfl⟩ | ⟨-, hyes, requestState, rfl⟩
  · exact absurd h.state hnot
  · refine Or.inl ⟨h.state, h.other, h.armTarget, h.armTargetX1, h.armSpeed, k + 1, ?_, ?_, harm'⟩
    · rw [← Bool.not_eq_true, hdone] at hnot
      exact not_le.mp hnot
    · show m.timer + 1 = m.seekBegin + (k + 1)
      omega
  · -- the last tick of the way
    have hlast : n * p.dist origin = k + 1 := Nat.le_antisymm (hdone.mp hyes) hk
    have hrotBegin : m.timer + 1 = m.seekBegin + n * p.dist origin := by omega
    refine Or.inr ⟨rfl, h.armTarget, ?_, hd.apart h.other, hrotBegin, ?_⟩
    · show m.turned.moved.armX1 = rest p.track
      rw [harm', ← hlast, ← hpaced.rest_add p origin]
      show rest origin + _ * m.armSpeed = _
      rw [h.armSpeed, drive_eq hd.setup]
    · unfold lookFrom
      rw [if_neg h.other]
      exact NotYet.refl _ _

/-- Without a seek the first part of the tick does nothing, and so do the other two outside their
phases. -/
theorem seeking_idle (hstate : m.disk.state ≠ .seek) (hseeking : m.turned.seeking = .ok m') :
    m' = m.turned := by
  rcases seeking_cases hseeking with ⟨-, rfl⟩ | ⟨hseek, -, -⟩ | ⟨hseek, -, -⟩
  · rfl
  · exact absurd hseek hstate
  · exact absurd hseek hstate

theorem rotating_idle (hstate : m.disk.state ≠ .rotate) (hrotating : m.rotating = .ok m') :
    m' = m := by
  rcases rotating_cases hrotating with ⟨-, rfl⟩ | ⟨hrotate, -⟩
  · rfl
  · exact absurd hrotate hstate

theorem transferring_idle (hstate : m.disk.state ≠ .xfer)
    (htransferring : m.transferring = .ok m') : m' = m := by
  rcases transferring_cases htransferring with ⟨-, rfl⟩ | ⟨hxfer, -⟩
  · rfl
  · exact absurd hxfer hstate

/-- The second part of a tick finds the beginning of the block, or one more tick has passed without
it. -/
theorem Rotating.rotating (h : m.Rotating S n p origin m.timer) (hd : m.Decided S p origin)
    (hrotating : m.rotating = .ok m') :
    m'.Rotating S n p origin (m'.timer + 1) ∨ m'.Transferring S n p origin m'.timer := by
  rcases rotating_cases hrotating with ⟨hnot, -⟩ | ⟨-, target, htarget, hcases⟩
  · exact absurd h.state hnot
  have hmark := Except.ok.inj (htarget.symm.trans (mark_eq (hd.setup ▸ hd.lies) h.armTrack _))
  have hclose := hd.turns.close_iff target
  rw [hmark, drive_eq hd.setup] at hclose
  rw [hmark] at hcases
  rcases hcases with ⟨hnot, rfl⟩ | ⟨hyes, requestState, rfl⟩
  · rw [← Bool.not_eq_true, hclose] at hnot
    exact Or.inl ⟨h.state, h.armTrack, h.armX1, h.apart, h.rotBegin, h.notYet.succ hnot⟩
  · -- the end of the block is looked for in this tick, too
    have hfirst := h.notYet.first (hclose.mp hyes)
    exact Or.inr ⟨rfl, h.armTrack, h.armX1,
      Or.inl ⟨⟨h.apart, h.rotBegin, hfirst⟩, NotYet.refl _ _⟩⟩

/-- The third part of a tick finds the end of the block and writes a row that is what the phases
have found, or one more tick has passed. -/
theorem Transferring.transferring (h : m.Transferring S n p origin m.timer)
    (hd : m.Decided S p origin) (htransferring : m.transferring = .ok m') :
    m' = m ∧ m.Transferring S n p origin (m.timer + 1) ∨
      m.row.Course S n (lastOr none m.rows) p origin ∧ m.transferred = .ok m' := by
  rcases transferring_cases htransferring with ⟨hnot, -⟩ | ⟨-, target, htarget, hcases⟩
  · exact absurd h.state hnot
  have hmark := Except.ok.inj (htarget.symm.trans (mark_eq (hd.setup ▸ hd.lies) h.armTrack _))
  have hclose := hd.turns.close_iff target
  rw [hmark, drive_eq hd.setup] at hclose
  rw [hmark] at hcases
  rcases hcases with ⟨hnot, rfl⟩ | ⟨hyes, htransferred⟩
  · rw [← Bool.not_eq_true, hclose] at hnot
    refine Or.inl ⟨rfl, h.state, h.armTrack, h.armX1, ?_⟩
    rcases h.came with ⟨hwaited, hnotYet⟩ | ⟨hwent, hnotYet⟩
    · exact Or.inl ⟨hwaited, hnotYet.succ hnot⟩
    · exact Or.inr ⟨hwent, hnotYet.succ hnot⟩
  · refine Or.inr ⟨⟨hd.lies, hd.arm, hd.estimate, ?_⟩, htransferred⟩
    rcases h.came with ⟨hwaited, hnotYet⟩ | ⟨hwent, hnotYet⟩
    · exact Or.inl ⟨hwaited, hnotYet.first (hclose.mp hyes)⟩
    · exact Or.inr ⟨hwent, hnotYet.first (hclose.mp hyes)⟩

/-! ## A decision -/

/-- With the arm over the track of the first block, the test at the end of a transfer asks whether
the next one comes right behind it. -/
theorem follows_iff {d : Disk} {a b : Block} {stays : Bool} (h : d.follows a b = .ok stays)
    (harm : d.layout.blockToTrackMap a = .ok d.armTrack) :
    stays = true ↔ d.layout.Next a b := by
  unfold Disk.follows at h
  obtain ⟨track, htrack, h⟩ := bind_eq_ok.mp h
  obtain ⟨nextTrack, hnextTrack, h⟩ := bind_eq_ok.mp h
  cases a with
  | str s => cases htrack
  | int i =>
    cases b with
    | str s => cases hnextTrack
    | int j =>
      split at h
      · rename_i hsame
        obtain ⟨⟨first, last⟩, hends, h⟩ := bind_eq_ok.mp h
        rw [← Except.ok.inj h, decide_eq_true_eq]
        constructor
        · intro hnext
          refine ⟨track, first, last, i, j, htrack, hsame ▸ hnextTrack, ?_, rfl, rfl, hnext⟩
          rw [← Except.ok.inj (harm.symm.trans htrack)]
          exact hends
        · intro ⟨track', first', last', i', j', htrack', _, hends', hi, hj, hnext⟩
          cases hi
          cases hj
          rw [← Except.ok.inj (harm.symm.trans htrack')] at hends'
          cases Except.ok.inj (hends.symm.trans hends')
          exact hnext
      · rename_i hother
        rw [← Except.ok.inj h]
        constructor
        · intro hfalse
          cases hfalse
        · intro ⟨track', first, last, i', j', ha, hb, _⟩
          have ha' := Except.ok.inj (htrack.symm.trans ha)
          have hb' := Except.ok.inj (hnextTrack.symm.trans hb)
          exact absurd (ha'.trans hb'.symm) hother

/-- A block on the track under the head has just been chosen. -/
structure Stays (p : Place) (origin : Nat) (m : Machine) : Prop where
  state : m.disk.state = .rotate
  armTrack : m.disk.armTrack = p.track
  track : p.track = origin
  armX1 : m.armX1 = rest p.track
  seekBegin : m.seekBegin = m.timer
  rotBegin : m.rotBegin = m.timer

/-- A block on the same track that does not follow the last one is waited for from the next tick
on. -/
theorem Stays.rotating (h : m.Stays p origin)
    (hapart : ∀ before, lastOr none m.rows = some before →
      ¬S.layout.Next before.block m.disk.currentBlock) :
    m.Rotating S n p origin (m.timer + 1) := by
  refine ⟨h.state, h.armTrack, h.armX1, hapart, ?_, ?_⟩
  · rw [Place.dist_self h.track, Nat.mul_zero, h.rotBegin, h.seekBegin, Nat.add_zero]
  · unfold lookFrom
    rw [if_pos h.track, h.rotBegin]
    exact NotYet.refl _ _

/-- A block that follows the last one is transferred at once, from where the last one has ended. -/
theorem Stays.goesOn (h : m.Stays p origin) {before : Row}
    (hbefore : lastOr none m.rows = some before)
    (hnext : S.layout.Next before.block m.disk.currentBlock) (requestState : List State) :
    (m.goesOn requestState).Transferring S n p origin (m.timer + 1) :=
  ⟨rfl, h.armTrack, h.armX1,
    Or.inr ⟨⟨⟨before, hbefore, hnext⟩, h.track, rfl, rfl⟩, NotYet.refl _ _⟩⟩

/-- A decision ends the run, or sends the arm off, or stays on the track. -/
theorem getNextIo_decided (hsetup : m.setup = S) (hpaced : Paced S.drive n) (hturns : m.Turns)
    (harmX1 : m.armX1 = rest m.disk.armTrack)
    (harm : Origin S (lastOr none m.rows) m.disk.armTrack) (hnext : m.getNextIo = .ok m') :
    m'.setup = S ∧ m'.rows = m.rows ∧ m'.disk.armTrack = m.disk.armTrack ∧
      (m'.disk.isDone = true ∨
        ∃ p, m'.Decided S p m.disk.armTrack ∧
          (m'.Seeking n p m.disk.armTrack ∨ m'.Stays p m.disk.armTrack)) := by
  rcases getNextIo_cases hnext with ⟨-, rfl⟩ | ⟨d, e, track, hkept, hest, htrack, hcases⟩
  · exact ⟨hsetup, rfl, rfl, Or.inl rfl⟩
  obtain ⟨p, hlies, rfl⟩ := estimate_ok hest
  rw [hsetup] at hlies
  have hlayout : d.layout = S.layout := hkept.layout.trans (layout_eq hsetup)
  obtain rfl : track = p.track := Except.ok.inj (htrack.symm.trans (hlayout ▸ hlies.track))
  have hsetup' : (⟨m.drive, m.tables, d.layout⟩ : Setup) = S := by
    rw [hkept.layout]
    exact hsetup
  have hestimate : p.estimate m.drive m.disk.armTrack m.angle =
      p.estimate S.drive m.disk.armTrack (S.drive.angle m.timer) := by
    rw [hturns, drive_eq hsetup]
  rcases hcases with ⟨hsame, hstate, rfl⟩ | ⟨hother, hstate, htarget, rfl⟩
  · -- the arm is there already
    refine ⟨hsetup', rfl, hkept.armTrack,
      Or.inr ⟨p, ⟨hsetup', hturns, hlies, harm, hestimate⟩, Or.inr ?_⟩⟩
    refine ⟨hstate, hkept.armTrack.trans hsame.symm, hsame, ?_, rfl, rfl⟩
    rw [hsame]
    exact harmX1
  · -- no tick of the way has gone by yet
    refine ⟨hsetup', rfl, hkept.armTrack,
      Or.inr ⟨p, ⟨hsetup', hturns, hlies, harm, hestimate⟩, Or.inl ?_⟩⟩
    refine ⟨hstate, hother, htarget, target_eq_rest _, rfl, 0, ?_, rfl, ?_⟩
    · refine Nat.mul_pos hpaced.pos ?_
      unfold Place.dist
      omega
    · show m.armX1 = rest m.disk.armTrack + (0 : Nat) * _
      rw [harmX1, Nat.cast_zero, zero_mul, add_zero]

/-- The end of a transfer writes the row and brings the next request on its way, in the first phase
that it needs. -/
theorem Transferring.transferred {now : Nat} (h : m.Transferring S n p origin now)
    (hd : m.Decided S p origin) (hpaced : Paced S.drive n)
    (htransferred : m.transferred = .ok m') :
    m'.setup = S ∧ m'.rows = m.rows ++ [m.row] ∧ (m'.disk.isDone = true ∨ m'.Flies S n) := by
  obtain ⟨d, m₁, stays, hlayout, harmTrack, -, -, -, hnext, hstays, hgoes⟩ :=
    transferred_cases htransferred
  have harm : d.armTrack = p.track := harmTrack.trans h.armTrack
  have hended : (m.ended d).setup = S := by
    unfold Machine.setup
    show (⟨m.drive, m.tables, d.layout⟩ : Setup) = S
    rw [hlayout]
    exact hd.setup
  have hlast : lastOr none (m.ended d).rows = some m.row := lastOr_snoc none m.rows m.row
  have hrest : (m.ended d).armX1 = rest (m.ended d).disk.armTrack := by
    show m.armX1 = rest d.armTrack
    rw [h.armX1, harm]
  have harm' : Origin S (lastOr none (m.ended d).rows) (m.ended d).disk.armTrack := by
    rw [hlast]
    show S.layout.blockToTrackMap m.disk.currentBlock = .ok d.armTrack
    rw [hd.lies.track, harm]
  obtain ⟨hsetup₁, hrows₁, harmTrack₁, hcases⟩ :=
    getNextIo_decided hended hpaced hd.turns hrest harm' hnext
  rcases hcases with hdone | ⟨q, hq, hway⟩
  · rcases hgoes with ⟨-, rfl⟩ | ⟨-, requestState, rfl⟩
    · exact ⟨hsetup₁, hrows₁, Or.inl hdone⟩
    · exact ⟨hsetup₁, hrows₁, Or.inl hdone⟩
  have hlast₁ : lastOr none m₁.rows = some m.row := by
    rw [hrows₁]
    exact hlast
  have harm₁ : m₁.disk.layout.blockToTrackMap m.disk.currentBlock = .ok m₁.disk.armTrack := by
    rw [layout_eq hsetup₁, harmTrack₁, hd.lies.track]
    exact congrArg Except.ok harm.symm
  -- `Animate` asks after the decision, with the arm still on the old track
  have hfollows := follows_iff hstays harm₁
  rw [layout_eq hsetup₁] at hfollows
  have hapart : stays = false → ∀ before, lastOr none m₁.rows = some before →
      ¬S.layout.Next before.block m₁.disk.currentBlock := by
    intro hno before hbefore
    cases Option.some.inj (hlast₁.symm.trans hbefore)
    rw [← Bool.not_eq_true, hfollows] at hno
    exact hno
  rcases hway with hseeking | hstay
  · rcases hgoes with ⟨-, rfl⟩ | ⟨hyes, -⟩
    · exact ⟨hsetup₁, hrows₁, Or.inr ⟨q, _, hq, Or.inl hseeking⟩⟩
    · -- a block on another track does not follow
      exact absurd (hfollows.mp hyes) (hq.apart hseeking.other m.row hlast₁)
  · rcases hgoes with ⟨hno, rfl⟩ | ⟨hyes, requestState, rfl⟩
    · exact ⟨hsetup₁, hrows₁, Or.inr ⟨q, _, hq, Or.inr (Or.inl (hstay.rotating (hapart hno)))⟩⟩
    · refine ⟨hsetup₁, hrows₁, Or.inr ⟨q, _, ?_,
        Or.inr (Or.inr (hstay.goesOn hlast₁ (hfollows.mp hyes) requestState))⟩⟩
      refine ⟨hsetup₁, hq.turns, hq.lies, hq.arm, ?_⟩
      show m₁.totalEst = q.estimate S.drive _ (S.drive.angle m₁.timer)
      rw [hq.estimate, hstay.seekBegin]

/-! ## Runs -/

/-- Each row has had its course, and so has the request in flight up to now. -/
structure OnCourse (S : Setup) (n : Nat) (m : Machine) : Prop where
  setup : m.setup = S
  rows : Linked (fun prev row => ∃ p origin, row.Course S n prev p origin) none m.rows
  flies : m.disk.isDone = true ∨ m.Flies S n

/-- As long as the run is not over a request is in flight. -/
theorem OnCourse.inFlight (h : m.OnCourse S n) (hgoing : m.disk.isDone = false) :
    m.Flies S n := by
  rcases h.flies with hdone | hflies
  · rw [hdone] at hgoing
    cases hgoing
  · exact hflies

theorem Transferring.onCourse (h : m.Transferring S n p origin m.timer)
    (hd : m.Decided S p origin) (hpaced : Paced S.drive n)
    (hrows : Linked (fun prev row => ∃ p origin, row.Course S n prev p origin) none m.rows)
    (htransferring : m.transferring = .ok m') : m'.OnCourse S n := by
  rcases h.transferring hd htransferring with ⟨rfl, hlater⟩ | ⟨hcourse, htransferred⟩
  · exact ⟨hd.setup, hrows, Or.inr ⟨p, origin, hd, Or.inr (Or.inr hlater)⟩⟩
  · obtain ⟨hsetup, hrows', hflies⟩ := h.transferred hd hpaced htransferred
    refine ⟨hsetup, ?_, hflies⟩
    rw [hrows']
    exact linked_snoc.mpr ⟨hrows, p, origin, hcourse⟩

theorem Rotating.onCourse {m₁ : Machine} (h : m.Rotating S n p origin m.timer)
    (hd : m.Decided S p origin) (hpaced : Paced S.drive n)
    (hrows : Linked (fun prev row => ∃ p origin, row.Course S n prev p origin) none m.rows)
    (hrotating : m.rotating = .ok m₁) (htransferring : m₁.transferring = .ok m') :
    m'.OnCourse S n := by
  have hkept := rotating_underway hrotating
  have hd₁ := hd.underway hkept
  rw [← hkept.rows] at hrows
  rcases h.rotating hd hrotating with hlater | harrived
  · have hstate := hlater.state
    cases transferring_idle (by rw [hstate]; decide) htransferring
    exact ⟨hd₁.setup, hrows, Or.inr ⟨p, origin, hd₁, Or.inr (Or.inl hlater)⟩⟩
  · exact harrived.onCourse hd₁ hpaced hrows htransferring

/-- A tick in each of the phases keeps the invariant: the phases that it can pass through are taken
one after the other. -/
theorem OnCourse.animate (h : m.OnCourse S n) (hpaced : Paced S.drive n)
    (hgoing : m.disk.isDone = false) (hanimate : m.animate = .ok m') : m'.OnCourse S n := by
  obtain ⟨m₁, m₂, hseeking, hrotating, htransferring⟩ := animate_parts hanimate
  obtain ⟨p, origin, hd, hphase⟩ := h.inFlight hgoing
  have hturned := hd.turned hpaced.rotate
  have hkept := seeking_underway hseeking
  rcases hphase with hphase | hphase | hphase
  · have hd₁ := hturned.underway hkept
    have hrows₁ : Linked (fun prev row => ∃ p origin, row.Course S n prev p origin) none
        m₁.rows := by
      rw [hkept.rows]
      exact h.rows
    rcases hphase.seeking hd hpaced hseeking with hlater | harrived
    · -- nothing else is tested during a seek
      have hstate := hlater.state
      cases rotating_idle (by rw [hstate]; decide) hrotating
      cases transferring_idle (by rw [hstate]; decide) htransferring
      exact ⟨hd₁.setup, hrows₁, Or.inr ⟨p, origin, hd₁, Or.inl hlater⟩⟩
    · exact harrived.onCourse hd₁ hpaced hrows₁ hrotating htransferring
  · have hne : m.disk.state ≠ .seek := by
      rw [hphase.state]
      decide
    cases seeking_idle hne hseeking
    -- The platter has turned by one step, and the sector has not come before.
    have hnow : m.turned.Rotating S n p origin m.turned.timer :=
      ⟨hphase.state, hphase.armTrack, hphase.armX1, hphase.apart, hphase.rotBegin, hphase.notYet⟩
    exact hnow.onCourse hturned hpaced h.rows hrotating htransferring
  · have hne : m.disk.state ≠ .seek := by
      rw [hphase.state]
      decide
    cases seeking_idle hne hseeking
    have hne' : m.turned.disk.state ≠ .rotate := by
      show m.disk.state ≠ .rotate
      rw [hphase.state]
      decide
    cases rotating_idle hne' hrotating
    -- Likewise for a transfer, which may have waited or have gone on along the track.
    have hnow : m.turned.Transferring S n p origin m.turned.timer := by
      refine ⟨hphase.state, hphase.armTrack, hphase.armX1, ?_⟩
      rcases hphase.came with ⟨hwaited, hnotYet⟩ | ⟨hwent, hnotYet⟩
      · exact Or.inl ⟨⟨hwaited.apart, hwaited.rotBegin, hwaited.xferBegin⟩, hnotYet⟩
      · exact Or.inr ⟨⟨hwent.next, hwent.track, hwent.rotBegin, hwent.xferBegin⟩, hnotYet⟩
    exact hnow.onCourse hturned hpaced h.rows htransferring

/-- What a row says about its request: it has had its course behind that of the row before it. -/
theorem OnCourse.course_at (h : m.OnCourse S n) {before after : List Row} {row : Row}
    (hrows : m.rows = before ++ row :: after) :
    ∃ p origin, row.Course S n before.getLast? p origin := by
  have hlinked := h.rows
  rw [hrows] at hlinked
  have hcourse := hlinked.holds
  rw [lastOr_none] at hcourse
  exact hcourse

theorem OnCourse.course_of_mem (h : m.OnCourse S n) {row : Row} (hrow : row ∈ m.rows) :
    ∃ prev p origin, row.Course S n prev p origin := by
  obtain ⟨before, after, hrows⟩ := List.append_of_mem hrow
  exact ⟨_, h.course_at hrows⟩

/-- The first decision sets out from track 0, with no row behind it. -/
theorem start_onCourse {c : Config} {v : Drive} {t : Tables} {l : Layout} (hpaced : Paced v n)
    (ht : Tables.initBlockLayout c.zoning v.skew = .ok t)
    (hl : initBlockLayout c.zoning = .ok l) (hstart : start c v = .ok m) :
    m.OnCourse ⟨v, t, l⟩ n := by
  obtain ⟨t', d, l', ht', hl', -, -, rfl, harm, -, -, hnext⟩ := start_cases hstart
  cases Except.ok.inj (ht.symm.trans ht')
  cases Except.ok.inj (hl.symm.trans hl')
  have hturns : (initial v t d).Turns := (Revolution.position_zero v.rotateSpeed 360).symm
  have hrest : (initial v t d).armX1 = rest (initial v t d).disk.armTrack := by
    show rest 0 = rest d.armTrack
    rw [harm]
  obtain ⟨hsetup, hrows, -, hcases⟩ :=
    getNextIo_decided (S := ⟨v, t, d.layout⟩) (n := n) rfl hpaced hturns hrest harm hnext
  have hnone : lastOr none m.rows = none := by
    rw [hrows]
    rfl
  refine ⟨hsetup, ?_, ?_⟩
  · rw [hrows]
    exact trivial
  · rcases hcases with hdone | ⟨p, hd, hseeking | hstay⟩
    · exact Or.inl hdone
    · exact Or.inr ⟨p, _, hd, Or.inl hseeking⟩
    · refine Or.inr ⟨p, _, hd, Or.inr (Or.inl (hstay.rotating fun before hbefore => ?_))⟩
      cases hnone.symm.trans hbefore

/-- Every machine that a run comes to is on course. -/
theorem onCourse {c : Config} {v : Drive} {t : Tables} {l : Layout} (hpaced : Paced v n)
    (ht : Tables.initBlockLayout c.zoning v.skew = .ok t)
    (hl : initBlockLayout c.zoning = .ok l) (h : (program c v).Reachable m) :
    m.OnCourse ⟨v, t, l⟩ n := by
  refine h.invariant (I := OnCourse ⟨v, t, l⟩ n) ?_ ?_
  · intro m₀ hstart
    exact start_onCourse hpaced ht hl hstart
  · intro m₁ _ m₂ hcourse ⟨hgoing, hanimate⟩
    exact hcourse.animate hpaced hgoing hanimate

theorem exists_onCourse {c : Config} {v : Drive} (hpaced : Paced v n)
    (h : (program c v).Reachable m) :
    ∃ t l, Tables.initBlockLayout c.zoning v.skew = .ok t ∧ initBlockLayout c.zoning = .ok l ∧
      m.OnCourse ⟨v, t, l⟩ n := by
  obtain ⟨t, l, ht, hl, -⟩ := reachable_accepted h
  exact ⟨t, l, ht, hl, onCourse hpaced ht hl h⟩

end Machine

end OsLab.Disks
