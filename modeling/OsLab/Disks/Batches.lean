import OsLab.Disks.Simulation
import OsLab.Lib.Batches

/-!
# Batches are served one after the other

Under BSATF the window ends with the batch that the number of served requests is in, and what is
chosen lies in front of its end. Late requests only lengthen the queue behind.

* **`Ready.choose_lt`**, **`Ready.getNextIo_lt`** -- a decision stays in front of the end of the
  window.
* **`Batched`** -- the invariant: nothing that has been served, or is being served, lies in a later
  batch than its place in the order of service.
* **`InFlight.animate_batched`** -- a tick keeps it.
* **`served_byBatches`** -- in every run each request of an earlier batch has been served before.
-/

namespace OsLab.Disks

namespace Disk

open Batches (Within)

variable {c : Config} {initial : List Int} {l : Layout} {d d' : Disk} {est : Block → Rat}
  {i n w : Nat}

/-! ## In front of the window's end -/

theorem Queued.lt_of_mem_take (h : Queued c initial d) {e : Block × Nat}
    (he : e ∈ d.requestQueue.take n) : e.2 < n := by
  obtain ⟨k, hk⟩ := List.mem_iff_getElem?.mp he
  obtain ⟨hlt, _⟩ := List.getElem?_eq_some_iff.mp hk
  rw [List.length_take] at hlt
  rw [List.getElem?_take, if_pos (by omega)] at hk
  obtain ⟨block, hentry⟩ := h.entry (show k < d.requestQueue.length by omega)
  obtain rfl : (block, k) = e := Option.some.inj (hentry.symm.trans hk)
  show k < n
  omega

/-- The queue holds the requests of the start, and one late request for each request that has been
served, as long as there are any. -/
theorem Ready.queue_length (h : Ready c initial d) : d.requestQueue.length =
    initial.length + min d.served.length (makeRequests c.lateAddr).length := by
  have hlength := h.length
  rw [h.lateCount, h.lateRequests] at hlength
  omega

/-- The slice that `getWindow` returns ends where the window ends that it leaves behind, also when
it has just moved the window on. -/
theorem getWindow_end (h : -1 < d.currWindow) : d.getWindow.1 = d.getWindow.2.currWindow := by
  unfold getWindow
  rw [if_neg (by omega)]
  split
  · rfl
  · rfl

theorem Ready.currWindow_pos (h : Ready c initial d) (hpolicy : c.policy = .BSATF)
    (hw : 1 ≤ w) (hwindow : c.window = w) : 0 < d.currWindow := by
  have hbefore := h.window
  unfold WindowBefore at hbefore
  rw [if_neg (by omega), if_pos hpolicy, hwindow] at hbefore
  have hpos : 0 < w * ((d.served.length - 1) / w + 1) := Nat.mul_pos hw (Nat.succ_pos _)
  have hcast : d.currWindow = (w * ((d.served.length - 1) / w + 1) : Nat) := by
    rw [hbefore]
    norm_cast
  omega

/-- What `choose` takes lies in front of the end of the window that it leaves behind. -/
theorem Ready.choose_lt (h : Ready c initial d) (hpolicy : c.policy = .BSATF) (hw : 1 ≤ w)
    (hwindow : c.window = w) (hmore : d.served.length < d.requestQueue.length)
    {chosen : Block × Option Nat} (hchoose : d.choose est = .ok (chosen, d'))
    (hindex : chosen.2 = some i) : (i : Int) < d'.currWindow := by
  obtain ⟨endIndex, currWindow, hget, _⟩ := h.getWindow (Or.inr (by omega)) hmore
  have hpos := h.currWindow_pos hpolicy hw hwindow
  have hend : endIndex = currWindow := by
    have hsame := getWindow_end (show -1 < d.currWindow by omega)
    rw [hget] at hsame
    exact hsame
  have hbsatf : d.policy = .BSATF := h.policy.trans hpolicy
  unfold choose at hchoose
  rw [hbsatf] at hchoose
  dsimp only at hchoose
  rw [hget] at hchoose
  obtain ⟨_, hsatf, hchoose⟩ := bind_eq_ok.mp hchoose
  obtain ⟨rfl, rfl⟩ := Prod.mk.inj (Except.ok.inj hchoose)
  obtain ⟨e, he, rfl, _⟩ := doSATF_cases hsatf
  obtain rfl : e.2 = i := Option.some.inj hindex
  show (e.2 : Int) < currWindow
  have hlt := h.toQueued.lt_of_mem_take he
  -- the slice ends at the window's end or with the queue
  split at hlt
  · omega
  · omega

theorem planSeek_frame {track : Nat} (h : d.planSeek track = .ok d') :
    d'.currWindow = d.currWindow ∧ d'.currentIndex = d.currentIndex := by
  rcases planSeek_cases h with ⟨_, requestState, rfl⟩ | ⟨_, requestState, rfl⟩
  · exact ⟨rfl, rfl⟩
  · exact ⟨rfl, rfl⟩

theorem addLate_frame (d : Disk) :
    d.addLate.currWindow = d.currWindow ∧ d.addLate.currentIndex = d.currentIndex := by
  obtain ⟨requestQueue, requestState, lateCount, hlate⟩ := d.addLate_eq
  rw [hlate]
  exact ⟨rfl, rfl⟩

/-- A decision that does not end the simulation works on what `choose` decides; the plan of the seek
and the late request change neither window nor index. -/
theorem getNextIo_chosen (h : d.getNextIo est = .ok d') :
    d' = { d with isDone := true } ∨ d.requestCount ≠ d.requestQueue.length ∧
      ∃ chosen d₁, d.choose est = .ok (chosen, d₁) ∧ d'.currWindow = d₁.currWindow ∧
        d'.currentIndex = chosen.2 := by
  unfold getNextIo at h
  split at h
  · exact Or.inl (Except.ok.inj h).symm
  · rename_i hmore
    obtain ⟨⟨chosen, d₁⟩, hchoose, h⟩ := bind_eq_ok.mp h
    obtain ⟨track, _, h⟩ := bind_eq_ok.mp h
    obtain ⟨d₂, hseek, h⟩ := bind_eq_ok.mp h
    obtain rfl := Except.ok.inj h
    obtain ⟨hwindow, hindex⟩ := planSeek_frame hseek
    obtain ⟨hwindow', hindex'⟩ := addLate_frame d₂
    exact Or.inr ⟨hmore, chosen, d₁, hchoose, hwindow'.trans hwindow, hindex'.trans hindex⟩

/-- After a decision the simulation is over, or the current request lies in front of the end of the
window. -/
theorem Ready.getNextIo_lt (h : Ready c initial d) (hpolicy : c.policy = .BSATF) (hw : 1 ≤ w)
    (hwindow : c.window = w) (hnext : d.getNextIo est = .ok d') :
    d'.isDone = true ∨ ∀ i, d'.currentIndex = some i → (i : Int) < d'.currWindow := by
  rcases getNextIo_chosen hnext with rfl | ⟨hmore, chosen, d₁, hchoose, hcurr, hindex⟩
  · exact Or.inl rfl
  · have hle := h.served_length_le
    rw [h.count] at hmore
    refine Or.inr fun i hi => ?_
    rw [hcurr]
    rw [hindex] at hi
    exact h.choose_lt hpolicy hw hwindow (by omega) hchoose hi

/-! ## Runs -/

/-- What has been served and what is being served lies in no later batch than its place. -/
def Batched (w : Nat) (d : Disk) : Prop :=
  Within w d.served ∧
    (d.isDone = false → ∀ i, d.currentIndex = some i → Within w (d.served ++ [i]))

/-- The batch of the request in flight is not behind that of the number of requests served, because
the window ends with that batch. -/
theorem InFlight.batch_le (h : InFlight c initial d i) (hpolicy : c.policy = .BSATF) (hw : 1 ≤ w)
    (hwindow : c.window = w) (hlt : (i : Int) < d.currWindow) :
    i / w ≤ d.served.length / w := by
  have hafter := h.window
  unfold Window at hafter
  rw [if_neg (by omega), if_pos hpolicy, hwindow] at hafter
  have hcast : d.currWindow = (w * (d.served.length / w + 1) : Nat) := by
    rw [hafter]
    norm_cast
  have hbelow : i < (d.served.length / w + 1) * w := by
    rw [Nat.mul_comm]
    omega
  exact Nat.le_of_lt_succ ((Nat.div_lt_iff_lt_mul hw).mpr hbelow)

/-- A decision keeps to the batch of the requests served, so the invariant holds of the request that
it puts in flight. -/
theorem Ready.getNextIo_batched (h : Ready c initial d) (hinitial : initial ≠ [])
    (hpolicy : c.policy = .BSATF) (hw : 1 ≤ w) (hwindow : c.window = w)
    (hserved : Within w d.served) (hnext : d.getNextIo est = .ok d') : Batched w d' := by
  obtain ⟨hsame, _, hcases⟩ := h.getNextIo_cases hinitial (Or.inr (by omega)) hnext
  refine ⟨hsame ▸ hserved, fun hgoing i hi => ?_⟩
  rcases hcases with ⟨hfinished, _⟩ | ⟨j, hflight⟩
  · rw [hfinished.done] at hgoing
    cases hgoing
  · obtain rfl : j = i := Option.some.inj (hflight.index.symm.trans hi)
    rcases h.getNextIo_lt hpolicy hw hwindow hnext with hdone | hlt
    · rw [hgoing] at hdone
      cases hdone
    · have hplace := hflight.batch_le hpolicy hw hwindow (hlt j hi)
      exact (hsame ▸ hserved).append_singleton hplace

/-- The end of a transfer puts the request at its place in the order of service, and the next
decision is made with the window of that place. -/
theorem InFlight.transferred_batched (h : InFlight c initial d i) (hinitial : initial ≠ [])
    (hpolicy : c.policy = .BSATF) (hw : 1 ≤ w) (hwindow : c.window = w)
    (hserved : Within w (d.served ++ [i])) (htransferred : d.transferred est = .ok d') :
    Batched w d' := by
  rw [← afterTransfer_served] at hserved
  rw [h.transferred_eq est] at htransferred
  obtain ⟨d₁, hnext, htransferred⟩ := bind_eq_ok.mp htransferred
  have hbatched := (h.serve hinitial (Or.inr (by omega))).getNextIo_batched hinitial hpolicy hw
    hwindow hserved hnext
  obtain ⟨stays, _, htransferred⟩ := bind_eq_ok.mp htransferred
  split at htransferred
  · rw [switchState_frame htransferred]
    exact hbatched
  · obtain rfl := Except.ok.inj htransferred
    exact hbatched

/-- A tick keeps the batches. Only the end of a transfer touches what they speak of. -/
theorem InFlight.animate_batched (h : InFlight c initial d i) (hinitial : initial ≠ [])
    (hpolicy : c.policy = .BSATF) (hw : 1 ≤ w) (hwindow : c.window = w) (hbatched : Batched w d)
    {tick : Tick} (htick : d.animate tick = .ok d') : Batched w d' := by
  have hserved := hbatched.2 h.going i h.index
  obtain ⟨d₁, h₁, _, _, hsame, _, heq⟩ := h.animate_eq tick
  rw [heq] at htick
  split at htick
  · exact h₁.transferred_batched hinitial hpolicy hw hwindow (hsame ▸ hserved) htick
  · obtain rfl := Except.ok.inj htick
    refine ⟨hsame ▸ hbatched.1, fun _ j hj => ?_⟩
    obtain rfl : i = j := Option.some.inj (h₁.index.symm.trans hj)
    exact hsame ▸ hserved

/-- The batches of the requests come in order of service: when a request is served, or being
served, each request of an earlier batch has been. -/
theorem served_byBatches (hvalid : ValidConfig c l) (hpolicy : c.policy = .BSATF) (hw : 1 ≤ w)
    (hwindow : c.window = w) (h : (simulation c).Reachable d) :
    (d.served.map (· / w)).Pairwise (· ≤ ·) ∧
      (∀ k i, d.served[k]? = some i → ∀ j, j / w < i / w → j ∈ d.served.take k) ∧
      (d.isDone = false → ∀ i, d.currentIndex = some i → ∀ j, j / w < i / w → j ∈ d.served) := by
  obtain ⟨initial, hinitial, hne, _⟩ := hvalid.exists_initial
  have hpair : Going c initial d ∧ Batched w d := by
    refine h.invariant (I := fun d => Going c initial d ∧ Batched w d) ?_ ?_
    · rintro d ⟨est, hstart⟩
      rw [start_eq hvalid.window (new_ok hvalid.layout hinitial)] at hstart
      obtain ⟨_, _, hcases⟩ := ready_fresh.getNextIo_cases hne hvalid.window hstart
      exact ⟨hcases.imp_left And.left, ready_fresh.getNextIo_batched hne hpolicy hw hwindow
        Batches.within_nil hstart⟩
    · rintro d tick d' ⟨hgoing, hbatched⟩ ⟨hnotDone, htick⟩
      rcases hgoing with hfinished | ⟨i, hflight⟩
      · rw [hfinished.done] at hnotDone
        cases hnotDone
      · exact ⟨(hflight.animate_cases hne hvalid.window htick).1,
          hflight.animate_batched hne hpolicy hw hwindow hbatched htick⟩
  obtain ⟨hgoing, hserved, hcurrent⟩ := hpair
  have hnodup : d.served.Nodup := by
    rcases hgoing with hfinished | ⟨i, hflight⟩
    · exact hfinished.served.nodup_iff.mpr List.nodup_range
    · exact hflight.nodup
  refine ⟨hserved.sorted hnodup hw, fun k i hi j hj => hserved.complete hnodup hw hi hj, ?_⟩
  intro hnotDone i hi j hj
  rcases hgoing with hfinished | ⟨i', hflight⟩
  · rw [hfinished.done] at hnotDone
    cases hnotDone
  · obtain rfl : i' = i := Option.some.inj (hflight.index.symm.trans hi)
    -- the request being served stands behind those that have been
    have hnodup' : (d.served ++ [i']).Nodup := by
      rw [List.nodup_append_comm]
      exact List.nodup_cons.mpr ⟨hflight.unserved, hnodup⟩
    have hfront := (hcurrent hnotDone i' hi).complete hnodup' hw
      (List.getElem?_concat_length) hj
    rwa [List.take_left] at hfront

/-- Blocks 7 and 3, then block 1 late, in batches of 2. -/
def batchesOfTwo : Config := ⟨(30, 30, 30), .BSATF, 2, .listed ['7', ',', '3'], .generated [1]⟩

theorem validConfig_batchesOfTwo : ValidConfig batchesOfTwo ⟨12, 12, 12⟩ := by
  have hnumbers : (∀ block ∈ makeRequests batchesOfTwo.addr,
        isNumber ⟨12, 12, 12⟩ block = true) ∧
      ∀ block ∈ makeRequests batchesOfTwo.lateAddr, isNumber ⟨12, 12, 12⟩ block = true := by
    decide +kernel
  exact ⟨rfl, Or.inr (by decide), by decide,
    fun block hblock => exists_of_isNumber (hnumbers.1 block hblock),
    fun block hblock => exists_of_isNumber (hnumbers.2 block hblock)⟩

/-- The late request, alone in its batch, is served last. -/
theorem served_byBatches_ofTwo : ∃ d, (simulation batchesOfTwo).Reachable d ∧
    d.served.Perm [0, 1, 2] ∧ (d.served.map (· / 2)).Pairwise (· ≤ ·) := by
  have hvalid := validConfig_batchesOfTwo
  have hlate : ∀ block ∈ makeRequests batchesOfTwo.lateAddr, OnTrack ⟨12, 12, 12⟩ block := by
    intro block hblock
    obtain rfl := List.mem_singleton.mp hblock
    exact ⟨0, by decide, rfl⟩
  have hinitial : (makeRequests batchesOfTwo.addr).mapM Block.toInt = .ok [7, 3] := by
    decide +kernel
  obtain ⟨d, hreach, hfinished⟩ :=
    (servesAll_of_tracks hvalid hlate).exists_finished hvalid hinitial (by decide)
  exact ⟨d, hreach, hfinished.served_perm,
    (served_byBatches hvalid rfl (by decide) rfl hreach).1⟩

end Disk

end OsLab.Disks
