import OsLab.Disks.Precise

/-!
# How far a window reaches

The window of `disk.py` at a decision is no further than the invariant of the simulation says, so
the requests that are eligible depend on those that have been served only.

* **`Fits`** -- a sliding window moves by one for each request served, and no request is taken up
  before it has come.
* **`Fits.afterTransfer`**, **`InFlight.animate_fits`** -- the end of a transfer, and a whole tick,
  keep it.
* **`fits_reachable`** -- it holds in every run.
* **`Decides.ready`** -- and with the invariant of the simulation it holds at every decision.
-/

namespace OsLab.Disks

namespace Disk

variable {c : Config} {initial : List Int} {l : Layout} {d d' : Disk} {est : Block → Rat}
  {i : Nat}

/-! ## The end of a sliding window -/

/-- What a run keeps to: a sliding window moves by one for each request served, and no request is
taken up before it has come. -/
structure Fits (c : Config) (initial : List Int) (d : Disk) : Prop where
  window : c.window ≠ -1 → c.policy ≠ .BSATF → d.currWindow ≤ c.window + d.served.length
  served : ∀ j ∈ d.served,
    j < initial.length + min d.served.length (makeRequests c.lateAddr).length
  current : d.isDone = false → ∀ i, d.currentIndex = some i →
    i < initial.length + min d.served.length (makeRequests c.lateAddr).length

theorem getWindow_unfair (hfair : d.fairWindow = -1) : d.getWindow.2 = d := by
  unfold getWindow
  split
  · rfl
  · rw [if_neg fun hne => hne hfair]

/-- Without batches the choice leaves the window as it was. -/
theorem choose_unfair (hfair : d.fairWindow = -1) {chosen : Block × Option Nat}
    (h : d.choose est = .ok (chosen, d')) : d' = d := by
  have hsame := getWindow_unfair hfair
  unfold choose at h
  split at h
  · obtain ⟨_, _, h⟩ := bind_eq_ok.mp h
    obtain ⟨_, _, h⟩ := bind_eq_ok.mp h
    exact (Prod.mk.inj (Except.ok.inj h)).2.symm
  · obtain ⟨_, _, h⟩ := bind_eq_ok.mp h
    exact (Prod.mk.inj (Except.ok.inj h)).2.symm.trans hsame
  · obtain ⟨_, _, h⟩ := bind_eq_ok.mp h
    exact (Prod.mk.inj (Except.ok.inj h)).2.symm.trans hsame
  · obtain ⟨_, _, h⟩ := bind_eq_ok.mp h
    obtain ⟨_, _, h⟩ := bind_eq_ok.mp h
    exact (Prod.mk.inj (Except.ok.inj h)).2.symm.trans hsame

theorem Queued.unfair (h : Queued c initial d) (hnot : ¬(c.policy = .BSATF ∧ c.window ≠ -1)) :
    d.fairWindow = -1 := by
  have hfair := h.fairWindow
  rwa [if_neg hnot] at hfair

/-- A decision takes up a request that has come already, and leaves the window where it was. -/
theorem Ready.getNextIo_fits (h : Ready c initial d) (hinitial : initial ≠ [])
    (hwindow : c.window = -1 ∨ 1 ≤ c.window)
    (hcurr : c.window ≠ -1 → c.policy ≠ .BSATF → d.currWindow ≤ c.window + d.served.length)
    (hserved : ∀ j ∈ d.served,
      j < initial.length + min d.served.length (makeRequests c.lateAddr).length)
    (hnext : d.getNextIo est = .ok d') : Fits c initial d' := by
  have hsame := (h.getNextIo_cases hinitial hwindow hnext).1
  rcases getNextIo_chosen hnext with rfl | ⟨hmore, chosen, d₁, hchoose, hcurr', hindex⟩
  · exact ⟨hcurr, hserved, fun hgoing => by cases hgoing⟩
  · have hle := h.served_length_le
    rw [h.count] at hmore
    refine ⟨fun hne hpolicy => ?_, hsame ▸ hserved, fun _ i hi => ?_⟩
    · rw [hcurr', choose_unfair (h.toQueued.unfair fun hboth => hpolicy hboth.1) hchoose, hsame]
      exact hcurr hne hpolicy
    · -- the request that is chosen is in the queue, which is as long as the late ones allow
      obtain ⟨e, he, _, rfl, _⟩ := h.choose_cases hwindow (by omega) hchoose
      rw [hindex] at hi
      obtain rfl : e.2 = i := Option.some.inj hi
      rw [hsame, ← h.queue_length]
      exact (h.toQueued.mem_iff he).1

theorem arrive_frame {tick : Tick} (h : d.arrive tick = .ok d') :
    d'.currWindow = d.currWindow ∧ d'.currentIndex = d.currentIndex := by
  unfold arrive seekEnds rotationEnds at h
  obtain ⟨d₁, hseek, h⟩ := bind_eq_ok.mp h
  have hfirst : d₁.currWindow = d.currWindow ∧ d₁.currentIndex = d.currentIndex := by
    split at hseek
    · rw [switchState_frame hseek]
      exact ⟨rfl, rfl⟩
    · obtain rfl := Except.ok.inj hseek
      exact ⟨rfl, rfl⟩
  split at h
  · rw [switchState_frame h]
    exact hfirst
  · obtain rfl := Except.ok.inj h
    exact hfirst

/-- The window moves by one at most when a transfer ends, and not at all for a batch. -/
theorem afterTransfer_currWindow (d : Disk) (i : Nat) :
    (d.afterTransfer i).currWindow ≤ d.currWindow + 1 := by
  unfold afterTransfer updateWindow
  split
  · exact Int.le_refl _
  · show d.currWindow ≤ d.currWindow + 1
    omega

/-- In front of the decision after a transfer the window has moved no further than the number of
requests served. -/
theorem Fits.afterTransfer (hfits : Fits c initial d) (h : InFlight c initial d i) :
    (c.window ≠ -1 → c.policy ≠ .BSATF →
      (d.afterTransfer i).currWindow ≤ c.window + (d.afterTransfer i).served.length) ∧
    ∀ j ∈ (d.afterTransfer i).served,
      j < initial.length + min d.served.length (makeRequests c.lateAddr).length := by
  have hstep := afterTransfer_currWindow d i
  rw [afterTransfer_served]
  refine ⟨fun hne hpolicy => ?_, fun j hj => ?_⟩
  · -- a move for the request that has been served
    have hold := hfits.window hne hpolicy
    rw [List.length_append, List.length_singleton]
    omega
  · rcases List.mem_append.mp hj with hold | hnew
    · exact hfits.served j hold
    · rw [List.mem_singleton.mp hnew]
      exact hfits.current h.going i h.index

theorem InFlight.transferred_fits (h : InFlight c initial d i) (hinitial : initial ≠ [])
    (hwindow : c.window = -1 ∨ 1 ≤ c.window) (hfits : Fits c initial d)
    (htransferred : d.transferred est = .ok d') : Fits c initial d' := by
  obtain ⟨hcurr, hserved⟩ := hfits.afterTransfer h
  rw [h.transferred_eq est] at htransferred
  obtain ⟨d₁, hnext, htransferred⟩ := bind_eq_ok.mp htransferred
  have hserved' : ∀ j ∈ (d.afterTransfer i).served, j < initial.length +
      min (d.afterTransfer i).served.length (makeRequests c.lateAddr).length := by
    intro j hj
    have hlt := hserved j hj
    rw [afterTransfer_length]
    omega
  have hfits₁ := (h.serve hinitial hwindow).getNextIo_fits hinitial hwindow hcurr hserved' hnext
  obtain ⟨stays, _, htransferred⟩ := bind_eq_ok.mp htransferred
  split at htransferred
  · rw [switchState_frame htransferred]
    exact ⟨hfits₁.window, hfits₁.served, hfits₁.current⟩
  · obtain rfl := Except.ok.inj htransferred
    exact hfits₁

/-- A tick keeps the window to the requests that have been served. -/
theorem InFlight.animate_fits (h : InFlight c initial d i) (hinitial : initial ≠ [])
    (hwindow : c.window = -1 ∨ 1 ≤ c.window) (hfits : Fits c initial d) {tick : Tick}
    (htick : d.animate tick = .ok d') : Fits c initial d' := by
  obtain ⟨d₁, harrive, h₁, _, _, hserved, _⟩ := h.arrive_eq tick
  obtain ⟨hcurr, _⟩ := arrive_frame harrive
  have hfits₁ : Fits c initial d₁ := by
    refine ⟨?_, ?_, ?_⟩
    · rw [hcurr, hserved]
      exact hfits.window
    · rw [hserved]
      exact hfits.served
    · intro _ j hj
      obtain rfl : i = j := Option.some.inj (h₁.index.symm.trans hj)
      rw [hserved]
      exact hfits.current h.going i h.index
  rw [animate_bind, harrive] at htick
  obtain ⟨d₂, hd₂, htick⟩ := bind_eq_ok.mp htick
  obtain rfl := Except.ok.inj hd₂
  split at htick
  · exact h₁.transferred_fits hinitial hwindow hfits₁ htick
  · obtain rfl := Except.ok.inj htick
    exact hfits₁

/-- Every state of a run keeps to `Fits`, beside the invariant of the simulation. -/
theorem fits_reachable (hvalid : ValidConfig c l)
    (hinitial : (makeRequests c.addr).mapM Block.toInt = .ok initial) (hne : initial ≠ [])
    (h : (simulation c).Reachable d) : Going c initial d ∧ Fits c initial d := by
  refine h.invariant (I := fun d => Going c initial d ∧ Fits c initial d) ?_ ?_
  · rintro d ⟨est, hstart⟩
    rw [start_eq hvalid.window (new_ok hvalid.layout hinitial)] at hstart
    obtain ⟨_, _, hcases⟩ := ready_fresh.getNextIo_cases hne hvalid.window hstart
    refine ⟨hcases.imp_left And.left,
      ready_fresh.getNextIo_fits hne hvalid.window (fun _ _ => ?_) (fun j hj => by cases hj) hstart⟩
    show c.window ≤ c.window + (0 : Nat)
    omega
  · rintro d tick d' ⟨hgoing, hfits⟩ ⟨hnotDone, htick⟩
    rcases hgoing with hfinished | ⟨i, hflight⟩
    · rw [hfinished.done] at hnotDone
      cases hnotDone
    · exact ⟨(hflight.animate_cases hne hvalid.window htick).1,
        hflight.animate_fits hne hvalid.window hfits htick⟩

/-! ## Decisions -/

/-- What `disk.py` is like in front of a decision: ready for it, and with a window that has not run
ahead. -/
theorem Decides.ready (hvalid : ValidConfig c l)
    (hinitial : (makeRequests c.addr).mapM Block.toInt = .ok initial) (hne : initial ≠ [])
    (h : Decides (simulation c) c d) : Ready c initial d ∧
      (c.window ≠ -1 → c.policy ≠ .BSATF → d.currWindow ≤ c.window + d.served.length) := by
  cases h with
  | first hnew =>
    obtain rfl := Except.ok.inj ((new_ok hvalid.layout hinitial).symm.trans hnew)
    refine ⟨ready_fresh, fun _ _ => ?_⟩
    show c.window ≤ c.window + (0 : Nat)
    omega
  | @next d₀ d₁ _ tick hreach hgoing harrive hends hafter =>
    obtain ⟨hcases, hfits⟩ := fits_reachable hvalid hinitial hne hreach
    rcases hcases with hfinished | ⟨i, hflight⟩
    · rw [hfinished.done] at hgoing
      cases hgoing
    · obtain ⟨d₁', harrive', h₁, _, _, hserved, _⟩ := hflight.arrive_eq tick
      obtain rfl : d₁' = d₁ := Except.ok.inj (harrive'.symm.trans harrive)
      obtain ⟨hcurr, _⟩ := arrive_frame harrive
      rw [h₁.endTransfer_eq] at hafter
      obtain rfl := Except.ok.inj hafter
      refine ⟨h₁.serve hne hvalid.window, fun hw hpolicy => ?_⟩
      have hstep := afterTransfer_currWindow d₁' i
      have hold := hfits.window hw hpolicy
      rw [afterTransfer_length, hserved]
      omega

end Disk

end OsLab.Disks
