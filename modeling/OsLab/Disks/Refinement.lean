import OsLab.Disks.Phases

/-!
# The machine refines the disk

Without its mechanics a tick of the machine is a tick of the disk: what the tick brings is what the
tests find, and the estimates are those of `DoSATF`. The machine aborts exactly when the disk does,
for the mechanics find every block that has a track.

* **`Estimates`**, **`chooseEst_map`** -- estimates that fail only where the disk fails as well
  leave the choice as it is.
* **`getNextIo_map`**, **`seeking_map`**, **`rotating_map`**, **`transferring_map`** -- each part of
  the machine behind the projection to the disk.
* **`Fits`** -- every block with a track lies somewhere; so it is for the tables of every accepted
  zoning.
* **`Flies.animate_map`**, **`refines`** -- a tick of the machine is one of the disk, and so is a
  run.
-/

namespace OsLab.Disks

/-- Two ways to go on that agree behind a projection: what comes first agrees, and whatever it
returns, the rest does. -/
theorem map_bind_eq {α β γ δ : Type} {x : Except Abort α} {f : α → Except Abort β} {g : β → γ}
    {h : α → δ} {y : Except Abort δ} {k : δ → Except Abort γ} (hx : x.map h = y)
    (hf : ∀ a, x = .ok a → (f a).map g = k (h a)) : (x >>= f).map g = y >>= k := by
  rw [← hx]
  cases x with
  | error e => rfl
  | ok a => exact hf a rfl

/-- The same where the first part is one and the same computation. -/
theorem map_bind_congr {α β γ : Type} {x : Except Abort α} {f : α → Except Abort β} {g : β → γ}
    {k : α → Except Abort γ} (hf : ∀ a, x = .ok a → (f a).map g = k a) :
    (x >>= f).map g = x >>= k := by
  cases x with
  | error e => rfl
  | ok a => exact hf a rfl

theorem map_eq_ok {α β : Type} {x : Except Abort α} {f : α → β} {b : β} :
    x.map f = .ok b ↔ ∃ a, x = .ok a ∧ f a = b := by
  cases x with
  | error e => simp [Except.map]
  | ok a => simp [Except.map]

namespace Disk

variable {d : Disk} {est : Block → Except Abort Rat} {est' : Block → Rat}

/-- An estimate fails only for a block that has no track. -/
def Estimates (l : Layout) (est : Block → Except Abort Rat) (est' : Block → Rat) : Prop :=
  ∀ block, est block = l.blockToTrackMap block >>= fun _ => .ok (est' block)

/-- The loop of `DoSATF` with the estimates of the machine chooses what the loop of the disk
chooses, or both fail. -/
theorem satfLoopEst_map (h : Estimates d.layout est est') (rList : List (Block × Nat))
    (minEst : Rat) (minBlock : Block) (minIndex : Option Nat) :
    (d.satfLoopEst est rList minEst minBlock minIndex).map Prod.snd =
      d.satfLoop est' rList minEst minBlock minIndex := by
  induction rList generalizing minEst minBlock minIndex with
  | nil => rfl
  | cons entry rList ih =>
    obtain ⟨block, i⟩ := entry
    unfold satfLoopEst satfLoop
    cases hstate : index d.requestState (some i) with
    | error e => rfl
    | ok state =>
      by_cases hdone : state = .done
      · simp only [bind, Except.bind, if_pos hdone]
        exact ih minEst minBlock minIndex
      · simp only [bind, Except.bind, if_neg hdone]
        rw [h block]
        cases htrack : d.layout.blockToTrackMap block with
        | error e => rfl
        | ok track =>
          show Except.map Prod.snd (if _ then _ else _) = if _ then _ else _
          split
          · exact ih (est' block) block (some i)
          · exact ih minEst minBlock minIndex

theorem doSATFEst_map (h : Estimates d.layout est est') (rList : List (Block × Nat)) :
    (d.doSATFEst est rList).map Prod.snd = d.doSATF est' rList := by
  unfold doSATFEst doSATF
  refine map_bind_eq (satfLoopEst_map h rList _ _ _) fun found _ => ?_
  obtain ⟨minEst, minBlock, minIndex⟩ := found
  show Except.map Prod.snd (assert _ _ >>= fun _ => assert _ _ >>= fun _ => _) =
    (assert _ _ >>= fun _ => assert _ _ >>= fun _ => _)
  cases assert (minBlock ≠ .int (-1)) "minBlock != -1" with
  | error e => rfl
  | ok _ =>
    cases assert (minIndex ≠ none) "minIndex != -1" with
    | error e => rfl
    | ok _ => rfl

/-- The policy's part of a decision, without the estimate that the machine stores with it. -/
theorem chooseEst_map (h : Estimates d.layout est est') :
    (d.chooseEst est).map (fun r => (r.1.2, r.2)) = d.choose est' := by
  have hwindow : Estimates d.getWindow.2.layout est est' := by
    obtain ⟨currWindow, heq⟩ := d.getWindow_eq
    rw [heq]
    exact h
  unfold chooseEst choose
  generalize d.getWindow = window at hwindow ⊢
  obtain ⟨endIndex, d₁⟩ := window
  have hsatf := fun rList => doSATFEst_map hwindow rList
  cases d.policy with
  | FIFO =>
    refine map_bind_congr fun front _ => ?_
    exact map_bind_eq (doSATFEst_map h _) fun chosen _ => rfl
  | SATF => exact map_bind_eq (hsatf _) fun chosen _ => rfl
  | BSATF => exact map_bind_eq (hsatf _) fun chosen _ => rfl
  | SSTF =>
    refine map_bind_congr fun trackList _ => ?_
    exact map_bind_eq (hsatf _) fun chosen _ => rfl

end Disk

namespace Machine

variable {m : Machine} {est' : Block → Rat}

theorem switchState_map (state : State) :
    (m.switchState state).map disk = m.disk.switchState state := by
  unfold switchState
  cases m.disk.switchState state with
  | error e => rfl
  | ok d => rfl

theorem planSeek_map (track : Nat) : (m.planSeek track).map disk = m.disk.planSeek track := by
  unfold planSeek
  cases m.disk.planSeek track with
  | error e => rfl
  | ok d =>
    show Except.map disk (if _ then _ else _) = .ok d
    split
    · rfl
    · rfl

/-- A decision of the machine is a decision of the disk, aborts included. -/
theorem getNextIo_map (h : Disk.Estimates m.disk.layout m.estimate est') :
    m.getNextIo.map disk = m.disk.getNextIo est' := by
  unfold getNextIo Disk.getNextIo
  split
  · rfl
  refine map_bind_eq (Disk.chooseEst_map h) fun chosen _ => ?_
  obtain ⟨⟨e, block, i⟩, d⟩ := chosen
  refine map_bind_congr fun track _ => ?_
  refine map_bind_eq (planSeek_map track) fun planned _ => ?_
  rfl

/-- An estimate depends on the arm and the platter, and on what does not change. -/
theorem estimates_congr {m' : Machine} (h : Disk.Estimates m.disk.layout m.estimate est')
    (hsetup : m'.setup = m.setup) (hangle : m'.angle = m.angle)
    (harm : m'.disk.armTrack = m.disk.armTrack) :
    Disk.Estimates m'.disk.layout m'.estimate est' := by
  have hdrive : m'.drive = m.drive := drive_eq hsetup
  have htables : m'.tables = m.tables := congrArg Setup.tables hsetup
  have hlayout : m'.disk.layout = m.disk.layout := layout_eq hsetup
  have hestimate : m'.estimate = m.estimate := by
    unfold estimate blockToAngleMap
    rw [hdrive, htables, hlayout, hangle, harm]
  rw [hlayout, hestimate]
  exact h

/-- The end of a transfer, behind the projection: the row and the clock are what is left out. -/
theorem transferred_map (h : Disk.Estimates m.disk.layout m.estimate est') :
    m.transferred.map disk = m.disk.transferred est' := by
  unfold transferred Disk.transferred
  refine map_bind_congr fun d hdone => ?_
  have hframe := Disk.switchState_frame hdone
  generalize hcounted : ({ d with
    requestCount := d.requestCount + 1
    served := d.served ++ d.currentIndex.toList } : Disk) = counted
  obtain ⟨currWindow, hwindow⟩ := counted.updateWindow_eq
  have hlayout : counted.updateWindow.layout = m.disk.layout := by
    rw [hwindow, ← hcounted, hframe]
  have harm : counted.updateWindow.armTrack = m.disk.armTrack := by
    rw [hwindow, ← hcounted, hframe]
  -- the next decision finds the arm and the platter where they are
  refine map_bind_eq (getNextIo_map (estimates_congr h ?_ rfl harm)) fun m₁ _ => ?_
  · exact congrArg (fun l => (⟨m.drive, m.tables, l⟩ : Setup)) hlayout
  · refine map_bind_congr fun stays _ => ?_
    show Except.map disk (if _ then _ else _) = if _ then _ else _
    split
    · exact switchState_map .xfer
    · rfl

/-! ## The parts of a tick -/

/-- The first part of a tick, where the tick brings what `DoneWithSeek` finds with the arm moved. -/
theorem seeking_map {tick : Disk.Tick} (h : tick.seekDone = m.turned.moved.seekDone) :
    m.turned.seeking.map disk = m.disk.seekEnds tick := by
  unfold seeking Disk.seekEnds
  by_cases hstate : m.disk.state = .seek
  · rw [if_pos (show m.turned.disk.state = .seek from hstate)]
    show Except.map disk (if m.turned.moved.seekDone = true then _ else _) = _
    cases hdone : m.turned.moved.seekDone with
    | true =>
      rw [if_pos rfl, if_pos ⟨hstate, h.trans hdone⟩]
      exact switchState_map .rotate
    | false =>
      have hnot : ¬(m.disk.state = .seek ∧ tick.seekDone = true) := by
        rw [h, hdone]
        simp
      rw [if_neg (by decide), if_neg hnot]
      rfl
  · have hnot : ¬(m.disk.state = .seek ∧ tick.seekDone = true) := fun hboth => hstate hboth.1
    rw [if_neg (show ¬m.turned.disk.state = .seek from hstate), if_neg hnot]
    rfl

/-- The second part of a tick, where the tick brings whether the beginning of the block is under the
head. -/
theorem rotating_map {tick : Disk.Tick} {target : Int}
    (hmark : m.disk.state = .rotate → m.mark (-1) = .ok target)
    (h : tick.rotationDone = m.radiallyCloseTo m.angle target) :
    m.rotating.map disk = m.disk.rotationEnds tick := by
  unfold rotating Disk.rotationEnds
  by_cases hstate : m.disk.state = .rotate
  · rw [if_pos hstate, hmark hstate]
    show Except.map disk (if m.radiallyCloseTo m.angle target = true then _ else _) = _
    cases hclose : m.radiallyCloseTo m.angle target with
    | true =>
      rw [if_pos rfl, if_pos ⟨hstate, h.trans hclose⟩]
      exact switchState_map .xfer
    | false =>
      have hnot : ¬(m.disk.state = .rotate ∧ tick.rotationDone = true) := by
        rw [h, hclose]
        simp
      rw [if_neg (by decide), if_neg hnot]
      rfl
  · have hnot : ¬(m.disk.state = .rotate ∧ tick.rotationDone = true) :=
      fun hboth => hstate hboth.1
    rw [if_neg hstate, if_neg hnot]
    rfl

/-- The third part of a tick, where it also brings the estimates for the next decision. -/
theorem transferring_map {tick : Disk.Tick} {target : Int}
    (hmark : m.disk.state = .xfer → m.mark 1 = .ok target)
    (h : tick.transferDone = m.radiallyCloseTo m.angle target)
    (hest : m.disk.state = .xfer → Disk.Estimates m.disk.layout m.estimate tick.est) :
    m.transferring.map disk =
      if m.disk.state = .xfer ∧ tick.transferDone then m.disk.transferred tick.est
      else pure m.disk := by
  unfold transferring
  by_cases hstate : m.disk.state = .xfer
  · rw [if_pos hstate, hmark hstate]
    show Except.map disk (if m.radiallyCloseTo m.angle target = true then _ else _) = _
    cases hclose : m.radiallyCloseTo m.angle target with
    | true =>
      rw [if_pos rfl, if_pos ⟨hstate, h.trans hclose⟩]
      exact transferred_map (hest hstate)
    | false =>
      have hnot : ¬(m.disk.state = .xfer ∧ tick.transferDone = true) := by
        rw [h, hclose]
        simp
      rw [if_neg (by decide), if_neg hnot]
      rfl
  · have hnot : ¬(m.disk.state = .xfer ∧ tick.transferDone = true) := fun hboth => hstate hboth.1
    rw [if_neg hstate, if_neg hnot]
    rfl

/-! ## A tick -/

variable {S : Setup} {n origin : Nat} {p : Place} {m' : Machine}

/-- Every block with a track lies somewhere, and the platter turns. -/
structure Fits (S : Setup) : Prop where
  rotate : S.drive.rotateSpeed ≠ 0
  lies : ∀ block track, S.layout.blockToTrackMap block = .ok track → ∃ p, Lies S block p

/-- On a setup that fits, the estimates of a machine fail only for blocks without a track. -/
theorem Fits.estimates (hfits : Fits S) (hsetup : m.setup = S) :
    ∃ est', Disk.Estimates m.disk.layout m.estimate est' := by
  refine ⟨fun block => (m.estimate block).toOption.getD 0, fun block => ?_⟩
  have hrotate : m.drive.rotateSpeed ≠ 0 := by
    rw [drive_eq hsetup]
    exact hfits.rotate
  cases htrack : m.disk.layout.blockToTrackMap block with
  | error e =>
    unfold estimate
    rw [htrack]
    rfl
  | ok track =>
    obtain ⟨p, hlies⟩ := hfits.lies block track (by rw [← layout_eq hsetup]; exact htrack)
    have hestimate := estimate_eq (m := m) (hsetup ▸ hlies) hrotate
    show m.estimate block = .ok ((m.estimate block).toOption.getD 0)
    rw [hestimate]
    rfl

/-- When the tests look for a mark the arm is on the block's track, also in the tick in which the
seek has ended. -/
theorem armTrack_of_seeking (hd : m.Decided S p origin) (hpaced : Paced S.drive n)
    (hphase : m.Seeking n p origin ∨ m.Rotating S n p origin (m.timer + 1) ∨
      m.Transferring S n p origin (m.timer + 1))
    (hseeking : m.turned.seeking = .ok m') (hstate : m'.disk.state ≠ .seek) :
    m'.disk.armTrack = p.track := by
  rcases hphase with hphase | hphase | hphase
  · rcases hphase.seeking hd hpaced hseeking with hlater | harrived
    · exact absurd hlater.state hstate
    · exact harrived.armTrack
  · cases seeking_idle (by rw [hphase.state]; decide) hseeking
    exact hphase.armTrack
  · cases seeking_idle (by rw [hphase.state]; decide) hseeking
    exact hphase.armTrack

theorem rotating_armTrack (h : m.rotating = .ok m') :
    m'.disk.armTrack = m.disk.armTrack ∧ (m'.disk.state = .xfer → m.disk.state ≠ .seek) := by
  rcases rotating_cases h with ⟨-, rfl⟩ | ⟨hstate, target, -, ⟨-, rfl⟩ | ⟨-, requestState, rfl⟩⟩
  · refine ⟨rfl, fun hxfer => ?_⟩
    rw [hxfer]
    decide
  · refine ⟨rfl, fun hxfer => ?_⟩
    rw [hxfer]
    decide
  · refine ⟨rfl, fun _ => ?_⟩
    rw [hstate]
    decide

theorem radiallyCloseTo_congr (hangle : m'.angle = m.angle) (hdrive : m'.drive = m.drive)
    (target : Rat) :
    m.radiallyCloseTo m.angle target = m'.radiallyCloseTo m'.angle target := by
  unfold radiallyCloseTo
  rw [hangle, hdrive]

/-- A tick of the machine is a tick of the disk: there is one that brings what the three tests
find. -/
theorem Flies.animate_map (h : m.Flies S n) (hpaced : Paced S.drive n) (hfits : Fits S) :
    ∃ tick, m.animate.map disk = m.disk.animate tick := by
  obtain ⟨p, origin, hd, hphase⟩ := h
  -- the estimates of a decision in this tick are made with the arm on the block's track
  obtain ⟨est', hest⟩ := hfits.estimates (m := { m.turned with
    disk := { m.disk with armTrack := p.track } }) hd.setup
  refine ⟨⟨m.turned.moved.seekDone, m.turned.radiallyCloseTo m.turned.angle (p.mark (-1)),
    m.turned.radiallyCloseTo m.turned.angle (p.mark 1), est'⟩, ?_⟩
  unfold animate
  rw [Disk.animate_bind, Disk.arrive, bind_assoc]
  refine map_bind_eq (seeking_map rfl) fun m₁ hseeking => ?_
  have hkept₁ := seeking_underway hseeking
  have harm₁ := armTrack_of_seeking hd hpaced hphase hseeking
  have hlies₁ : Lies m₁.setup m₁.disk.currentBlock p := by
    rw [hkept₁.setup, hkept₁.currentBlock]
    exact hd.setup ▸ hd.lies
  refine map_bind_eq (rotating_map (fun hstate => mark_eq hlies₁ (harm₁ ?_) (-1))
    (radiallyCloseTo_congr hkept₁.angle hkept₁.drive _)) fun m₂ hrotating => ?_
  · rw [hstate]
    decide
  have hkept₂ := rotating_underway hrotating
  obtain ⟨hsame, hsought⟩ := rotating_armTrack hrotating
  have harm₂ : m₂.disk.state = .xfer → m₂.disk.armTrack = p.track :=
    fun hxfer => hsame.trans (harm₁ (hsought hxfer))
  have hlies₂ : Lies m₂.setup m₂.disk.currentBlock p := by
    rw [hkept₂.setup, hkept₂.currentBlock]
    exact hlies₁
  refine transferring_map (fun hxfer => mark_eq hlies₂ (harm₂ hxfer) 1) ?_ fun hxfer => ?_
  · exact radiallyCloseTo_congr (hkept₂.angle.trans hkept₁.angle)
      (hkept₂.drive.trans hkept₁.drive) _
  · exact estimates_congr hest (hkept₂.setup.trans hkept₁.setup)
      (hkept₂.angle.trans hkept₁.angle) (harm₂ hxfer)

/-! ## Runs -/

/-- The tables of an accepted zoning fit, for every block of a track has been given an angle. -/
theorem fits {zoning : Nat × Nat × Nat} {v : Drive} {t : Tables} {l : Layout}
    (ht : Tables.initBlockLayout zoning v.skew = .ok t) (hl : initBlockLayout zoning = .ok l)
    (hrotate : v.rotateSpeed ≠ 0) : Fits ⟨v, t, l⟩ := by
  obtain ⟨l', hl', -, -, hoffsets, hangles⟩ := Tables.initBlockLayout_ok ht
  cases Except.ok.inj (hl.symm.trans hl')
  refine ⟨hrotate, fun block track htrack => ?_⟩
  cases block with
  | str s => cases htrack
  | int b =>
    have hangle := hangles b
    have htrack' := htrack
    unfold Layout.blockToTrackMap at htrack'
    dsimp only at htrack'
    split at htrack'
    · cases htrack'
    rename_i hnonneg
    -- A block that has a track is in one of the three zones; each zone has an offset.
    have hoffset : ∃ offset, t.blockAngleOffset[track]? = some offset := by
      rw [hoffsets]
      split at htrack'
      · cases htrack'
        exact ⟨_, rfl⟩
      · split at htrack'
        · cases htrack'
          exact ⟨_, rfl⟩
        · split at htrack'
          · cases htrack'
            exact ⟨_, rfl⟩
          · cases htrack'
    have hsome : ∃ angle, t.blockToAngleMap b = some angle := by
      rw [hangle]
      split_ifs with houter hmiddle hinner
      · exact ⟨_, rfl⟩
      · exact ⟨_, rfl⟩
      · exact ⟨_, rfl⟩
      -- Outside of the zones there is no track either.
      · rw [if_neg (by omega), if_neg (by omega), if_neg (by omega)] at htrack'
        cases htrack'
    obtain ⟨offset, hoffset⟩ := hoffset
    obtain ⟨angle, hangle⟩ := hsome
    exact ⟨⟨track, offset, angle⟩, htrack, hoffset, b, rfl, hangle⟩

theorem initial_estimates {v : Drive} {t : Tables} {d : Disk}
    (hfits : Fits ⟨v, t, d.layout⟩) :
    ∃ est, (initial v t d).getNextIo.map disk = d.getNextIo est := by
  obtain ⟨est, hest⟩ := hfits.estimates (m := initial v t d) rfl
  exact ⟨est, getNextIo_map hest⟩

/-- **The machine refines the disk.** What the machine can come to is, without the mechanics, what
the disk can come to. -/
theorem refines {c : Config} {v : Drive} (hwindow : c.window ≠ 0) (hpaced : Paced v n)
    (h : (program c v).Reachable m) : (Disk.simulation c).Reachable m.disk := by
  obtain ⟨t, l, ht, hl, -⟩ := reachable_accepted h
  have hfits := fits ht hl hpaced.rotate.ne'
  refine h.refines (f := disk) ?_ ?_
  · intro m₀ hstart
    obtain ⟨t', d, l', ht', hl', -, hnew, rfl, -, -, -, hnext⟩ := start_cases hstart
    cases Except.ok.inj (ht.symm.trans ht')
    cases Except.ok.inj (hl.symm.trans hl')
    obtain ⟨est, hest⟩ := initial_estimates hfits
    refine ⟨est, ?_⟩
    unfold Disk.start
    rw [if_neg hwindow, hnew]
    show d.getNextIo est = _
    rw [← hest, hnext]
    rfl
  · intro m₁ _ m₂ hreach ⟨hgoing, hanimate⟩
    have hcourse := onCourse hpaced ht hl hreach
    obtain ⟨tick, htick⟩ := (hcourse.inFlight hgoing).animate_map hpaced hfits
    refine ⟨tick, hgoing, ?_⟩
    rw [← htick, hanimate]
    rfl

end Machine

end OsLab.Disks
