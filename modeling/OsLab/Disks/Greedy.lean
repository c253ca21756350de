import OsLab.Disks.Refinement
import OsLab.Disks.Precise
import OsLab.Lib.FirstLeast

/-!
# The schedulers are greedy

At every decision `DoSATF` takes, of the requests in the window that have not been served, the first
whose estimate is least; SSTF does so among those on the nearest track. The estimate is never
negative, so the -1 that `minEst` starts with is never mistaken for one.

* **`satfLoopEst_best`**, **`sstfLoop_nearest`** -- what the two loops hold after each entry.
* **`chooseEst_least`** -- the three policies as one: the first of least `rank` in the slice that
  the window leaves.
* **`ChosenAt`**, **`Greedy`** -- what is in flight was the best at the decision that put it there.
* **`inFlight_best`** -- so it is in every run, all the while that the request is in flight.
-/

namespace OsLab.Disks

namespace Disk

variable {d d' : Disk} {est : Block → Except Abort Rat} {rList seen : List (Block × Nat)}
  {minEst e : Rat} {minBlock block : Block} {minIndex i : Option Nat}

/-! ## What is compared -/

/-- An estimate as a number; one that fails is never compared. -/
def estOf (est : Block → Except Abort Rat) (entry : Block × Nat) : Rat :=
  (est entry.1).toOption.getD 0

/-- `dist` -/
def distOf (d : Disk) (entry : Block × Nat) : Nat :=
  match d.layout.blockToTrackMap entry.1 with
  | .ok track => ((d.armTrack : Int) - track).natAbs
  | .error _ => 0

/-- SSTF looks at the distance before it looks at the estimate. -/
def rank (d : Disk) (est : Block → Except Abort Rat) (entry : Block × Nat) : Nat ×ₗ Rat :=
  toLex (if d.policy = .SSTF then d.distOf entry else 0, estOf est entry)

instance (d : Disk) : DecidablePred fun entry : Block × Nat => d.Eligible entry.2 := fun entry =>
  match h : d.requestState[entry.2]? with
  | none => isFalse fun ⟨state, hstate, _⟩ => by simp [h] at hstate
  | some state =>
    if hdone : state = .done then
      isFalse fun ⟨state', hstate', hne⟩ => hne (Option.some.inj (hstate'.symm.trans h) ▸ hdone)
    else
      isTrue ⟨state, h, hdone⟩

/-- Estimates are not negative. -/
def NonNeg (est : Block → Except Abort Rat) : Prop := ∀ block e, est block = .ok e → 0 ≤ e

/-! ## `DoSATF` -/

/-- What the loop holds after the entries in `seen`. -/
def Best (d : Disk) (est : Block → Except Abort Rat) (seen : List (Block × Nat)) (minEst : Rat)
    (minIndex : Option Nat) (minBlock : Block) : Prop :=
  (minEst = -1 ∧ minIndex = none ∧ ∀ y ∈ seen, ¬ d.Eligible y.2) ∨
    ∃ x, FirstLeast (estOf est) (fun y => d.Eligible y.2) seen x ∧ minBlock = x.1 ∧
      minIndex = some x.2 ∧ est x.1 = .ok minEst

/-- The loop keeps the first of the best, and the negative `minEst` as long as there is none. The
induction is on the entries still to come. -/
theorem satfLoopEst_best (hest : NonNeg est) (hbest : d.Best est seen minEst minIndex minBlock)
    (h : d.satfLoopEst est rList minEst minBlock minIndex = .ok (e, block, i)) :
    d.Best est (seen ++ rList) e i block := by
  induction rList generalizing seen minEst minBlock minIndex with
  | nil =>
    cases Except.ok.inj h
    rwa [List.append_nil]
  | cons entry rList ih =>
    have hassoc : seen ++ entry :: rList = seen ++ [entry] ++ rList := by simp
    rw [hassoc]
    unfold satfLoopEst at h
    obtain ⟨state, hstate, h⟩ := bind_eq_ok.mp h
    rcases eligible_or (index_some_eq_ok.mp hstate) with ⟨hdone, hserved⟩ | ⟨hdone, heligible⟩
    -- A request that is served leaves the best of the eligible ones as it is.
    · rw [if_pos hdone] at h
      refine ih ?_ h
      rcases hbest with ⟨hnone, hindex, hseen⟩ | ⟨x, hx, hblock, hindex, hok⟩
      · refine .inl ⟨hnone, hindex, ?_⟩
        rw [List.forall_mem_append]
        exact ⟨hseen, fun y hy => List.mem_singleton.mp hy ▸ hserved⟩
      · exact .inr ⟨x, hx.skip hserved, hblock, hindex, hok⟩
    · rw [if_neg hdone] at h
      obtain ⟨totalEst, htotal, h⟩ := bind_eq_ok.mp h
      have hkey : estOf est entry = totalEst := by
        unfold estOf
        rw [htotal]
        rfl
      rcases hbest with ⟨hnone, _, hseen⟩ | ⟨x, hx, hblock, hindex, hok⟩
      · -- nothing has been eligible so far
        rw [if_pos (.inl hnone)] at h
        exact ih (.inr ⟨entry, .first hseen heligible, rfl, rfl, htotal⟩) h
      · have hkeyx : estOf est x = minEst := by
          unfold estOf
          rw [hok]
          rfl
        -- An estimate is never the `-1` that stands for none.
        have hpos : (0 : Rat) ≤ minEst := hest _ _ hok
        -- Only a smaller estimate takes over, so of two equal ones the earlier stays.
        by_cases hlt : totalEst < minEst
        · rw [if_pos (.inr hlt)] at h
          refine ih (.inr ⟨entry, hx.replace heligible ?_, rfl, rfl, htotal⟩) h
          rwa [hkey, hkeyx]
        · have hstays : ¬ (minEst = -1 ∨ totalEst < minEst) := by
            rintro (hminus | hless)
            · linarith
            · exact hlt hless
          rw [if_neg hstays] at h
          refine ih (.inr ⟨x, hx.keep ?_, hblock, hindex, hok⟩) h
          rw [hkey, hkeyx]
          exact not_lt.mp hlt

/-- `DoSATF` returns the first entry of least estimate among those that have not been served, with
that estimate. -/
theorem doSATFEst_least (hest : NonNeg est) (h : d.doSATFEst est rList = .ok (e, block, i)) :
    ∃ x, FirstLeast (estOf est) (fun y => d.Eligible y.2) rList x ∧ block = x.1 ∧ i = some x.2 ∧
      est x.1 = .ok e := by
  unfold doSATFEst at h
  obtain ⟨⟨minEst, minBlock, minIndex⟩, hloop, h⟩ := bind_eq_ok.mp h
  obtain ⟨_, _, h⟩ := bind_eq_ok.mp h
  obtain ⟨_, hsome, h⟩ := bind_eq_ok.mp h
  cases Except.ok.inj h
  have hstart : d.Best est [] (-1) none (.int (-1)) := .inl ⟨rfl, rfl, fun y hy => by cases hy⟩
  rcases satfLoopEst_best hest hstart hloop with ⟨_, hnone, _⟩ | hx
  · simp [hnone] at hsome
  · exact hx

/-! ## `DoSSTF` -/

/-- What the loop has found after the entries in `seen`: those that are nearest. -/
def Nearest (d : Disk) (seen : List (Block × Nat)) (minDist : Nat)
    (trackList : List (Block × Nat)) : Prop :=
  (∀ y ∈ seen, d.Eligible y.2 → minDist ≤ d.distOf y) ∧
    trackList = seen.filter fun y => d.Eligible y.2 ∧ d.distOf y = minDist

/-- An entry that is farther away, or has been served, leaves what is nearest as it was. -/
theorem Nearest.skip {minDist : Nat} {trackList : List (Block × Nat)} {entry : Block × Nat}
    (h : d.Nearest seen minDist trackList) (hentry : d.Eligible entry.2 → minDist < d.distOf entry) :
    d.Nearest (seen ++ [entry]) minDist trackList := by
  obtain ⟨hnear, hlist⟩ := h
  constructor
  · rw [List.forall_mem_append]
    exact ⟨hnear, fun y hy helig => by
      rw [List.mem_singleton.mp hy] at helig ⊢
      exact (hentry helig).le⟩
  · have hout : ¬ (d.Eligible entry.2 ∧ d.distOf entry = minDist) := by
      rintro ⟨helig, hsame⟩
      have hlt := hentry helig
      omega
    rw [List.filter_append, ← hlist, List.filter_singleton]
    simp [hout]

/-- The loop of `DoSSTF` ends with the entries on the nearest track, in their order. -/
theorem sstfLoop_nearest {minDist : Nat} {trackList found : List (Block × Nat)}
    (hnear : d.Nearest seen minDist trackList) (h : d.sstfLoop rList minDist trackList = .ok found) :
    ∃ near, d.Nearest (seen ++ rList) near found := by
  induction rList generalizing seen minDist trackList with
  | nil =>
    cases Except.ok.inj h
    rw [List.append_nil]
    exact ⟨minDist, hnear⟩
  | cons entry rList ih =>
    have hassoc : seen ++ entry :: rList = seen ++ [entry] ++ rList := by simp
    rw [hassoc]
    unfold sstfLoop at h
    obtain ⟨state, hstate, h⟩ := bind_eq_ok.mp h
    rcases eligible_or (index_some_eq_ok.mp hstate) with ⟨hdone, hserved⟩ | ⟨hdone, heligible⟩
    · rw [if_pos hdone] at h
      -- A request that is served is not among the nearest anyway.
      exact ih (hnear.skip fun helig => absurd helig hserved) h
    · rw [if_neg hdone] at h
      obtain ⟨track, htrack, h⟩ := bind_eq_ok.mp h
      have hdist : ((d.armTrack : Int) - track).natAbs = d.distOf entry := by
        unfold distOf
        rw [htrack]
      dsimp only at h
      rw [hdist] at h
      split at h
      · next hcloser =>
        refine ih ⟨?_, ?_⟩ h
        · rw [List.forall_mem_append]
          exact ⟨fun y hy helig => hcloser.le.trans (hnear.1 y hy helig),
            fun y hy _ => by rw [List.mem_singleton.mp hy]⟩
        · -- nothing before this entry is as near
          have hnone : seen.filter (fun y => d.Eligible y.2 ∧ d.distOf y = d.distOf entry) = [] := by
            refine List.filter_eq_nil_iff.mpr fun y hy hboth => ?_
            rw [decide_eq_true_eq] at hboth
            have hfar := hnear.1 y hy hboth.1
            omega
          rw [List.filter_append, hnone, List.filter_singleton]
          simp [heligible]
      split at h
      -- As near as the best so far: it is put behind them.
      · next hsame =>
        refine ih ⟨?_, ?_⟩ h
        · rw [List.forall_mem_append]
          exact ⟨hnear.1, fun y hy _ => by rw [List.mem_singleton.mp hy, hsame]⟩
        · rw [List.filter_append, ← hnear.2, List.filter_singleton]
          simp [heligible, hsame]
      · next hfar hother =>
        exact ih (hnear.skip fun _ => by omega) h

/-! ## The choice -/

/-- Whatever the policy, the chosen request is the first of least rank in its slice of the queue,
among those that have not been served. -/
theorem chooseEst_least (hest : NonNeg est) (h : d.chooseEst est = .ok ((e, block, i), d')) :
    ∃ x, FirstLeast (d.rank est) (fun y => d.Eligible y.2) d.slice x ∧ block = x.1 ∧
      i = some x.2 ∧ est x.1 = .ok e := by
  -- for all policies but SSTF the rank is the estimate
  have hplain : d.policy ≠ .SSTF → ∀ {rList x},
      FirstLeast (estOf est) (fun y => d.Eligible y.2) rList x →
        FirstLeast (d.rank est) (fun y => d.Eligible y.2) rList x := by
    rintro hpolicy rList x ⟨before, after, hlist, hx, hbefore, hafter⟩
    refine ⟨before, after, hlist, hx, fun y hy helig => ?_, fun y hy helig => ?_⟩
    · unfold rank
      rw [if_neg hpolicy, if_neg hpolicy, Prod.Lex.toLex_lt_toLex]
      exact .inr ⟨rfl, hbefore y hy helig⟩
    · unfold rank
      rw [if_neg hpolicy, if_neg hpolicy, Prod.Lex.toLex_le_toLex]
      exact .inr ⟨rfl, hafter y hy helig⟩
  unfold chooseEst at h
  unfold slice
  -- the window moves, and nothing else of the disk
  obtain ⟨currWindow, hwindow⟩ := d.getWindow_eq
  generalize d.getWindow = window at h hwindow ⊢
  obtain ⟨endIndex, d₁⟩ := window
  have hd₁ : d₁ = { d with currWindow := currWindow } := hwindow
  subst hd₁
  cases hpolicy : d.policy with
  | FIFO =>
    rw [hpolicy] at h
    obtain ⟨⟨b, k⟩, hindex, h⟩ := bind_eq_ok.mp h
    obtain ⟨⟨e', b', i'⟩, hsatf, h⟩ := bind_eq_ok.mp h
    obtain ⟨x, hx, -, -, hok⟩ := doSATFEst_least hest hsatf
    have hentry : (d.requestQueue.drop d.requestCount).take 1 = [(b, k)] := by
      rw [List.take_one, List.head?_drop, index_some_eq_ok.mp hindex]
      rfl
    have hsingle : x = (b, k) := List.mem_singleton.mp (hentry ▸ hx.mem)
    subst hsingle
    have hchosen := Except.ok.inj h
    simp only [Prod.mk.injEq] at hchosen
    obtain ⟨⟨rfl, rfl, rfl⟩, -⟩ := hchosen
    exact ⟨(b, k), hplain (by simp [hpolicy]) hx, rfl, rfl, hok⟩
  | SATF =>
    rw [hpolicy] at h
    obtain ⟨chosen, hsatf, h⟩ := bind_eq_ok.mp h
    have hchosen : chosen = (e, block, i) := congrArg Prod.fst (Except.ok.inj h)
    obtain ⟨x, hx, hrest⟩ := doSATFEst_least hest (hchosen ▸ hsatf)
    exact ⟨x, hplain (by simp [hpolicy]) hx, hrest⟩
  | BSATF =>
    rw [hpolicy] at h
    obtain ⟨chosen, hsatf, h⟩ := bind_eq_ok.mp h
    have hchosen : chosen = (e, block, i) := congrArg Prod.fst (Except.ok.inj h)
    obtain ⟨x, hx, hrest⟩ := doSATFEst_least hest (hchosen ▸ hsatf)
    exact ⟨x, hplain (by simp [hpolicy]) hx, hrest⟩
  | SSTF =>
    rw [hpolicy] at h
    obtain ⟨trackList, hsstf, h⟩ := bind_eq_ok.mp h
    obtain ⟨chosen, hsatf, h⟩ := bind_eq_ok.mp h
    have hchosen : chosen = (e, block, i) := congrArg Prod.fst (Except.ok.inj h)
    obtain ⟨x, hx, hrest⟩ := doSATFEst_least hest (hchosen ▸ hsatf)
    unfold doSSTF at hsstf
    obtain ⟨found, hloop, hsstf⟩ := bind_eq_ok.mp hsstf
    obtain ⟨_, _, hsstf⟩ := bind_eq_ok.mp hsstf
    cases Except.ok.inj hsstf
    obtain ⟨near, hnear, hlist⟩ := sstfLoop_nearest ⟨fun y hy => (List.not_mem_nil hy).elim, rfl⟩
      hloop
    refine ⟨x, ?_, hrest⟩
    unfold rank
    simp only [hpolicy, if_true]
    -- those that `DoSSTF` has kept are the nearest
    exact FirstLeast.lex hnear (hlist ▸ hx)

end Disk

namespace Machine

variable {m m' : Machine} {c : Config} {v : Drive}

/-! ## Estimates are not negative -/

theorem raiseBelow_nonneg (n : Nat) {x : Rat} (hx : -x ≤ 360 * n) : 0 ≤ raiseBelow n x := by
  induction n generalizing x with
  | zero =>
    show 0 ≤ x
    push_cast at hx
    linarith
  | succ n ih =>
    unfold raiseBelow
    split
    · apply ih
      push_cast at hx
      linarith
    · next hnot => exact not_lt.mp hnot

theorem upTo0_nonneg (x : Rat) : 0 ≤ upTo0 x := by
  apply raiseBelow_nonneg
  have hceil : -x / 360 ≤ (⌈-x / 360⌉.toNat : Int) :=
    (Int.le_ceil _).trans (Int.cast_le.mpr (Int.self_le_toNat _))
  push_cast at hceil
  linarith

/-- No estimate is negative: the wait has been brought up to 0, and the seek and the transfer take
no negative time. -/
theorem estimate_nonneg (hrotate : 0 < m.drive.rotateSpeed) (hseek : 0 < m.drive.seekSpeed) :
    Disk.NonNeg m.estimate := by
  intro block e h
  unfold estimate at h
  obtain ⟨track, -, h⟩ := bind_eq_ok.mp h
  obtain ⟨angle, -, h⟩ := bind_eq_ok.mp h
  obtain ⟨angleOffset, -, h⟩ := bind_eq_ok.mp h
  rw [if_neg hrotate.ne'] at h
  cases Except.ok.inj h
  have hwidth : (0 : Rat) ≤ trackWidth := by norm_num [trackWidth]
  have hseekEst := mul_nonneg (div_nonneg hwidth hseek.le)
    (Nat.cast_nonneg (α := Rat) ((m.disk.armTrack : Int) - track).natAbs)
  have hrotEst := div_nonneg (upTo0_nonneg (downTo360 ((angle : Rat) - angleOffset -
    downTo360 (m.angle + trackWidth / m.drive.seekSpeed *
      ((m.disk.armTrack : Int) - track).natAbs * m.drive.rotateSpeed)))) hrotate.le
  have hxferEst := div_nonneg (mul_nonneg (Nat.cast_nonneg (α := Rat) angleOffset) zero_le_two)
    hrotate.le
  exact add_nonneg (add_nonneg hseekEst hrotEst) hxferEst

/-! ## What is in flight -/

/-- What the machine works on is what the disk and the estimates of `m₀` make the best choice. -/
structure ChosenAt (m₀ m : Machine) (x : Block × Nat) : Prop where
  best : FirstLeast (m₀.disk.rank m₀.estimate) (fun y => m₀.disk.Eligible y.2) m₀.disk.slice x
  block : m.disk.currentBlock = x.1
  position : m.disk.currentIndex = some x.2
  est : m₀.estimate x.1 = .ok m.totalEst
  served : m.disk.served = m₀.disk.served

/-- `GetNextIO` puts the best request in flight, unless there is none left; then the simulation is
over. -/
theorem getNextIo_best (hest : Disk.NonNeg m.estimate) (h : m.getNextIo = .ok m') :
    m'.disk.isDone = true ∨ ∃ x, m.ChosenAt m' x := by
  unfold getNextIo at h
  split at h
  · exact .inl (congrArg (fun m => m.disk.isDone) (Except.ok.inj h).symm)
  · obtain ⟨⟨⟨e, block, i⟩, d₁⟩, hchoose, h⟩ := bind_eq_ok.mp h
    obtain ⟨x, hbest, hblock, hi, hok⟩ := Disk.chooseEst_least hest hchoose
    obtain ⟨-, currWindow, rfl⟩ := Disk.chooseEst_cases hchoose
    obtain ⟨track, -, h⟩ := bind_eq_ok.mp h
    obtain ⟨m₁, hplan, h⟩ := bind_eq_ok.mp h
    cases Except.ok.inj h
    -- neither `PlanSeek` nor a late request touches what is in flight
    obtain ⟨requestQueue, requestState, lateCount, hlate⟩ := m₁.disk.addLate_eq
    have hkept : m₁.disk.currentBlock = block ∧ m₁.disk.currentIndex = i ∧
        m₁.totalEst = e ∧ m₁.disk.served = m.disk.served := by
      unfold planSeek at hplan
      obtain ⟨d₂, hseek, hplan⟩ := bind_eq_ok.mp hplan
      rcases Disk.planSeek_cases hseek with ⟨hsame, states, hd₂⟩ | ⟨hother, states, hd₂⟩
      · rw [if_pos hsame] at hplan
        cases Except.ok.inj hplan
        rw [hd₂]
        exact ⟨rfl, rfl, rfl, rfl⟩
      · rw [if_neg hother] at hplan
        cases Except.ok.inj hplan
        rw [hd₂]
        exact ⟨rfl, rfl, rfl, rfl⟩
    obtain ⟨hcurrent, hindex, htotal, hserved⟩ := hkept
    refine .inr ⟨x, hbest, ?_, ?_, ?_, ?_⟩
    · show m₁.disk.addLate.currentBlock = x.1
      rw [hlate, ← hblock]
      exact hcurrent
    · show m₁.disk.addLate.currentIndex = some x.2
      rw [hlate, ← hi]
      exact hindex
    · show m.estimate x.1 = .ok m₁.totalEst
      rw [hok, htotal]
    · show m₁.disk.addLate.served = m.disk.served
      rw [hlate]
      exact hserved

/-- Nothing but a decision changes what is in flight, so a machine with the same current request has
the same choice behind it. -/
theorem ChosenAt.congr {m₀ : Machine} {x : Block × Nat} (h : m₀.ChosenAt m x)
    (hblock : m'.disk.currentBlock = m.disk.currentBlock)
    (hindex : m'.disk.currentIndex = m.disk.currentIndex) (htotal : m'.totalEst = m.totalEst)
    (hserved : m'.disk.served = m.disk.served) : m₀.ChosenAt m' x where
  best := h.best
  block := hblock.trans h.block
  position := hindex.trans h.position
  est := htotal ▸ h.est
  served := hserved.trans h.served

/-- A run of the program calls `GetNextIO` with this machine. -/
inductive Decides (c : Config) (v : Drive) : Machine → Prop where
  | first {m : Machine} (hnew : new c v = .ok m) : Decides c v m
  | next {m m₁ m₂ : Machine} {d : Disk} {target : Int} (hreach : (program c v).Reachable m)
      (hgoing : m.disk.isDone = false) (hseeking : m.turned.seeking = .ok m₁)
      (hrotating : m₁.rotating = .ok m₂) (hxfer : m₂.disk.state = .xfer)
      (hmark : m₂.mark 1 = .ok target) (hclose : m₂.radiallyCloseTo m₂.angle target = true)
      (hends : m₂.disk.endTransfer = .ok d) : Decides c v (m₂.ended d)

/-- What is in flight, and the speeds that the estimates are made with. -/
structure Greedy (c : Config) (v : Drive) (m : Machine) : Prop where
  drive : m.drive = v
  chosen : m.disk.isDone = false → ∃ m₀ x, Decides c v m₀ ∧ m₀.ChosenAt m x

/-- Behind a decision the request in flight is the one that was just chosen. -/
theorem Greedy.of_decides {m₀ : Machine} (hdrive : m₀.drive = v) (hrotate : 0 < v.rotateSpeed)
    (hseek : 0 < v.seekSpeed) (hdecides : Decides c v m₀) (h : m₀.getNextIo = .ok m) :
    Greedy c v m where
  drive := by
    rcases getNextIo_cases h with ⟨-, rfl⟩ | ⟨d, e, track, -, -, -, ⟨-, -, rfl⟩ | ⟨-, -, -, rfl⟩⟩
    · exact hdrive
    · exact hdrive
    · exact hdrive
  chosen hgoing := by
    have hest : Disk.NonNeg m₀.estimate := by
      apply estimate_nonneg
      · rwa [hdrive]
      · rwa [hdrive]
    rcases getNextIo_best hest h with hdone | ⟨x, hchosen⟩
    · exact absurd (hdone.symm.trans hgoing) (by decide)
    · exact ⟨m₀, x, hdecides, hchosen⟩

/-! ## Over a run -/

/-- The end of a transfer decides with the machine that has entered its row, and goes on with what
was decided. -/
theorem transferred_decides (h : m.transferred = .ok m') :
    ∃ d m₁, m.disk.endTransfer = .ok d ∧ (m.ended d).getNextIo = .ok m₁ ∧
      (m' = m₁ ∨ ∃ requestState, m' = m₁.goesOn requestState) := by
  unfold transferred at h
  obtain ⟨d₁, hdone, h⟩ := bind_eq_ok.mp h
  obtain ⟨m₁, hnext, h⟩ := bind_eq_ok.mp h
  obtain ⟨stays, -, h⟩ := bind_eq_ok.mp h
  have hframe := Disk.switchState_frame hdone
  have hblock : d₁.currentBlock = m.disk.currentBlock := by rw [hframe]
  refine ⟨{ d₁ with
    requestCount := d₁.requestCount + 1
    served := d₁.served ++ d₁.currentIndex.toList : Disk }.updateWindow, m₁, ?_, ?_, ?_⟩
  · unfold Disk.endTransfer
    rw [hdone]
    rfl
  · -- `DoRequestStats` comes before the window moves, and reads nothing that the end has changed
    rw [← hnext]
    unfold ended row doRequestStats
    rw [← hblock]
  · split at h
    · exact .inr (switchState_cases h)
    · exact .inl (Except.ok.inj h).symm

/-- A part of a tick that decides nothing. -/
theorem seeking_inFlight {m₀ : Machine} {x : Block × Nat} (h : m.seeking = .ok m')
    (hchosen : m₀.ChosenAt m x) : m₀.ChosenAt m' x := by
  rcases seeking_cases h with ⟨-, rfl⟩ | ⟨-, -, rfl⟩ | ⟨-, -, requestState, rfl⟩
  · exact hchosen
  · exact hchosen.congr rfl rfl rfl rfl
  · exact hchosen.congr rfl rfl rfl rfl

theorem rotating_inFlight {m₀ : Machine} {x : Block × Nat} (h : m.rotating = .ok m')
    (hchosen : m₀.ChosenAt m x) : m₀.ChosenAt m' x := by
  rcases rotating_cases h with ⟨-, rfl⟩ | ⟨-, target, -, ⟨-, rfl⟩ | ⟨-, requestState, rfl⟩⟩
  · exact hchosen
  · exact hchosen
  · exact hchosen.congr rfl rfl rfl rfl

/-- A tick keeps the choice of the request in flight, or replaces it by the decision that it
makes. -/
theorem animate_greedy (hrotate : 0 < v.rotateSpeed) (hseek : 0 < v.seekSpeed)
    (hreach : (program c v).Reachable m) (hgoing : m.disk.isDone = false)
    (hgreedy : Greedy c v m) (h : m.animate = .ok m') : Greedy c v m' := by
  obtain ⟨m₁, m₂, hseeking, hrotating, htransferring⟩ := animate_parts h
  have hdrive₁ : m₁.drive = v := (seeking_underway hseeking).drive.trans hgreedy.drive
  have hdrive₂ : m₂.drive = v := (rotating_underway hrotating).drive.trans hdrive₁
  have hgoing₂ : Greedy c v m₂ := by
    refine ⟨hdrive₂, fun _ => ?_⟩
    obtain ⟨m₀, x, hdecides, hchosen⟩ := hgreedy.chosen hgoing
    have hturned : m₀.ChosenAt m.turned x := hchosen.congr rfl rfl rfl rfl
    exact ⟨m₀, x, hdecides, rotating_inFlight hrotating (seeking_inFlight hseeking hturned)⟩
  rcases transferring_cases htransferring with ⟨-, rfl⟩ |
    ⟨hxfer, target, hmark, ⟨-, rfl⟩ | ⟨hclose, hends⟩⟩
  · exact hgoing₂
  · exact hgoing₂
  · obtain ⟨d, m₃, hend, hnext, hafter⟩ := transferred_decides hends
    have hdecides : Decides c v (m₂.ended d) :=
      .next hreach hgoing hseeking hrotating hxfer hmark hclose hend
    have hdrive : (m₂.ended d).drive = v := hdrive₂
    have hgreedy₃ : Greedy c v m₃ := .of_decides hdrive hrotate hseek hdecides hnext
    rcases hafter with rfl | ⟨requestState, rfl⟩
    · exact hgreedy₃
    · refine ⟨hgreedy₃.drive, fun hdone => ?_⟩
      obtain ⟨m₀, x, hdecides₀, hchosen⟩ := hgreedy₃.chosen hdone
      exact ⟨m₀, x, hdecides₀, hchosen.congr rfl rfl rfl rfl⟩

/-- **The request in flight is the best.** All the while, it is the one that the policy calls the
best of its slice of the queue, by the estimates of the moment at which it has been chosen. -/
theorem inFlight_best (hrotate : 0 < v.rotateSpeed) (hseek : 0 < v.seekSpeed)
    (h : (program c v).Reachable m) (hgoing : m.disk.isDone = false) :
    ∃ m₀ x, Decides c v m₀ ∧ m₀.ChosenAt m x := by
  have hgreedy : (program c v).Reachable m ∧ Greedy c v m := by
    refine h.invariant (I := fun m => (program c v).Reachable m ∧ Greedy c v m) ?_ ?_
    · intro m hinit
      refine ⟨.of_init hinit, ?_⟩
      have hstart : start c v = .ok m := hinit
      unfold start at hstart
      split at hstart
      · cases hstart
      · obtain ⟨m₀, hnew, hnext⟩ := bind_eq_ok.mp hstart
        have hdrive : m₀.drive = v := by
          unfold new at hnew
          obtain ⟨_, _, hnew⟩ := bind_eq_ok.mp hnew
          obtain ⟨_, _, hnew⟩ := bind_eq_ok.mp hnew
          obtain ⟨_, _, hnew⟩ := bind_eq_ok.mp hnew
          cases Except.ok.inj hnew
          rfl
        exact .of_decides hdrive hrotate hseek (.first hnew) hnext
    · rintro m ⟨⟩ m' ⟨hreach, hgreedy⟩ ⟨hgoing, hanimate⟩
      exact ⟨hreach.step (a := ()) ⟨hgoing, hanimate⟩,
        animate_greedy hrotate hseek hreach hgoing hgreedy hanimate⟩
  exact hgreedy.2.chosen hgoing

/-- Block 7 comes under the head before block 3, which has been asked for first. -/
theorem inFlight_best_nearer :
    ∃ m, (program ⟨(30, 30, 30), .SATF, -1, .listed ['3', ',', '7'], .generated []⟩
        ⟨1, 40, 0⟩).Reachable m ∧
      m.disk.currentIndex = some 1 ∧ ∃ m₀ x, Decides ⟨(30, 30, 30), .SATF, -1,
        .listed ['3', ',', '7'], .generated []⟩ ⟨1, 40, 0⟩ m₀ ∧ m₀.ChosenAt m x := by
  obtain ⟨m, hreach, hflight⟩ := exists_run (v := ⟨1, 40, 0⟩) 3
    (c := ⟨(30, 30, 30), .SATF, -1, .listed ['3', ',', '7'], .generated []⟩)
    (P := fun m => decide (m.disk.isDone = false ∧ m.disk.currentIndex = some 1))
    (by decide +kernel)
  obtain ⟨hgoing, hindex⟩ := of_decide_eq_true hflight
  exact ⟨m, hreach, hindex, inFlight_best (by decide) (by decide) hreach hgoing⟩

end Machine

end OsLab.Disks
