import OsLab.Disks.Shadow
import OsLab.Disks.Windows

/-!
# The same window

When `disk-precise.py` schedules from the same window as `disk.py`. Outside of BSATF the two
programs are one; in batches they differ where the window has been cut to a queue that was still to
grow.

* **`windowEnd`**, **`Ready.slice_congr`** -- how far a decision looks depends on how many requests
  have been served.
* **`InFlight.animate_unfair`**, **`mirrored_unfair`** -- without batches both programs run alike.
* **`Ready.mirrored`**, **`mirrored_batches`** -- in batches, as long as both windows end with the
  same request.
* **`exists_lockstep`**, **`not_sameWindow`** -- otherwise the run up to the first cut window, and
  the decision that differs.
* **`sameWindow_iff`** -- the exact condition on the options.
-/

namespace OsLab.Disks

namespace Disk

variable {c : Config} {initial : List Int} {l : Layout} {d d' p : Disk} {est : Block → Rat}
  {i k w : Nat}

/-! ## What is eligible after the same requests -/

/-- How far decision `k` looks into a queue of `length` requests. -/
def windowEnd (c : Config) (k length : Nat) : Int :=
  if c.window = -1 then length
  else if c.policy = .BSATF then min (batchEnd c.window.toNat k : Nat) length
  else min (c.window + k) length

/-- What a decision of `disk.py` looks at is the front of the queue, up to the end of the window. -/
theorem slice_of_ne (hpolicy : d.policy ≠ .FIFO) :
    d.slice = d.requestQueue.take (min d.getWindow.1 d.requestQueue.length).toNat := by
  unfold slice
  cases hp : d.policy with
  | FIFO => exact absurd hp hpolicy
  | SSTF =>
    show d.requestQueue.take d.getWindow.1.toNat = _
    rw [List.take_eq_take_iff]
    omega
  | SATF =>
    show d.requestQueue.take (if d.getWindow.1 > d.requestQueue.length then
      (d.requestQueue.length : Int) else d.getWindow.1).toNat = _
    split
    · rw [List.take_eq_take_iff]
      omega
    · rw [List.take_eq_take_iff]
      omega
  | BSATF =>
    show d.requestQueue.take (if d.getWindow.1 > d.requestQueue.length then
      (d.requestQueue.length : Int) else d.getWindow.1).toNat = _
    split
    · rw [List.take_eq_take_iff]
      omega
    · rw [List.take_eq_take_iff]
      omega

theorem Precise.slice_of_ne (hpolicy : p.policy ≠ .FIFO) : Precise.slice p =
    p.requestQueue.take (min (Precise.getWindow p).1 p.requestQueue.length).toNat := by
  unfold Precise.slice
  split
  · exact absurd ‹p.policy = .FIFO› hpolicy
  · rw [List.take_eq_take_iff]
    omega

/-- The end of the window is the one that `windowEnd` computes from the options and the number of
requests served. -/
theorem Ready.windowEnd_eq (h : Ready c initial d) (hinitial : initial ≠ [])
    (hwindow : c.window = -1 ∨ 1 ≤ c.window)
    (hcurr : c.window ≠ -1 → c.policy ≠ .BSATF → d.currWindow ≤ c.window + d.served.length)
    (hmore : d.served.length < d.requestQueue.length) :
    min d.getWindow.1 (d.requestQueue.length : Int) =
      windowEnd c d.served.length d.requestQueue.length := by
  have hbefore := h.window
  unfold WindowBefore at hbefore
  unfold windowEnd
  rcases hwindow with hfull | hpos
  · rw [if_pos hfull] at hbefore ⊢
    have hend : d.getWindow.1 = d.requestQueue.length := by
      unfold Disk.getWindow
      rw [if_pos (by omega)]
    omega
  have hne : c.window ≠ -1 := by omega
  rw [if_neg hne] at hbefore ⊢
  by_cases hpolicy : c.policy = .BSATF
  · rw [if_pos hpolicy]
    have hb : InBatches c c.window.toNat := ⟨hpolicy, by omega, by omega⟩
    rw [h.getWindow_batch hb hmore]
  · rw [if_neg hpolicy] at hbefore ⊢
    have hupper := hcurr hne hpolicy
    have hlength := h.queue_length
    have hfirst := List.length_pos_iff.mpr hinitial
    rw [h.lateRequests, ← hlength] at hbefore
    -- the window has moved once for each request, unless it was at the end of the queue
    have hend : d.getWindow.1 = d.currWindow := by
      rw [getWindow_end (by omega),
        getWindow_unfair (h.toQueued.unfair fun hboth => hpolicy hboth.1)]
    omega

theorem Ready.requestQueue_congr {d₁ : Disk} (h : Ready c initial d) (h₁ : Ready c initial d₁)
    (hlength : d.served.length = d₁.served.length) : d.requestQueue = d₁.requestQueue := by
  rw [h.queue, h₁.queue, h.lateCount, h₁.lateCount, h.lateRequests, h₁.lateRequests, hlength]

/-- Decisions after as many requests look at the same part of the queue, in whatever order these
have been served. -/
theorem Ready.slice_congr {d₁ : Disk} (h : Ready c initial d) (h₁ : Ready c initial d₁)
    (hinitial : initial ≠ []) (hwindow : c.window = -1 ∨ 1 ≤ c.window)
    (hcurr : c.window ≠ -1 → c.policy ≠ .BSATF → d.currWindow ≤ c.window + d.served.length)
    (hcurr₁ : c.window ≠ -1 → c.policy ≠ .BSATF → d₁.currWindow ≤ c.window + d₁.served.length)
    (hlength : d.served.length = d₁.served.length)
    (hmore : d.served.length < d.requestQueue.length) : d.slice = d₁.slice := by
  have hqueue := h.requestQueue_congr h₁ hlength
  have hpolicy := h.policy
  have hpolicy₁ := h₁.policy
  by_cases hfifo : c.policy = .FIFO
  · rw [hfifo] at hpolicy hpolicy₁
    unfold slice
    rw [hpolicy, hpolicy₁]
    dsimp only
    rw [hqueue, h.count, h₁.count, hlength]
  · rw [slice_of_ne (by rw [hpolicy]; exact hfifo), slice_of_ne (by rw [hpolicy₁]; exact hfifo),
      h.windowEnd_eq hinitial hwindow hcurr hmore,
      h₁.windowEnd_eq hinitial hwindow hcurr₁ (by rw [← hlength, ← hqueue]; exact hmore), hqueue,
      hlength]

theorem slice_subset (d : Disk) : d.slice ⊆ d.requestQueue := by
  unfold slice
  split
  · exact ((List.take_sublist _ _).trans (List.drop_sublist _ _)).subset
  · exact (List.take_sublist _ _).subset
  · exact (List.take_sublist _ _).subset
  · exact (List.take_sublist _ _).subset

/-- Nothing is eligible when everything has been served. -/
theorem Queued.not_eligible (h : Queued c initial d)
    (hdone : d.requestQueue.length ≤ d.served.length) (hi : i < d.requestQueue.length) :
    ¬ d.Eligible i := by
  rw [h.eligible i hi, not_not]
  have hsubset : d.served ⊆ List.range d.requestQueue.length :=
    fun j hj => List.mem_range.mpr (h.lt j hj)
  have hperm : d.served.Perm (List.range d.requestQueue.length) := by
    refine (List.subperm_of_subset h.nodup hsubset).perm_of_length_le ?_
    rw [List.length_range]
    exact hdone
  exact hperm.mem_iff.mpr (List.mem_range.mpr hi)

/-- Decisions after the same requests choose among the same ones. -/
theorem Ready.candidate_congr {d₁ : Disk} (h : Ready c initial d) (h₁ : Ready c initial d₁)
    (hinitial : initial ≠ []) (hwindow : c.window = -1 ∨ 1 ≤ c.window)
    (hcurr : c.window ≠ -1 → c.policy ≠ .BSATF → d.currWindow ≤ c.window + d.served.length)
    (hcurr₁ : c.window ≠ -1 → c.policy ≠ .BSATF → d₁.currWindow ≤ c.window + d₁.served.length)
    (hperm : d.served.Perm d₁.served) (i : Nat) :
    d.Candidate d.slice i ↔ d₁.Candidate d₁.slice i := by
  have hqueue := h.requestQueue_congr h₁ hperm.length_eq
  have heligible : ∀ e ∈ d.requestQueue, d.Eligible e.2 ↔ d₁.Eligible e.2 := by
    intro e he
    rw [(h.toQueued.mem_iff he).2, (h₁.toQueued.mem_iff (hqueue ▸ he)).2, hperm.mem_iff]
  rcases Nat.lt_or_ge d.served.length d.requestQueue.length with hmore | hdone
  · rw [← h.slice_congr h₁ hinitial hwindow hcurr hcurr₁ hperm.length_eq hmore]
    unfold Candidate
    constructor
    · rintro ⟨e, he, rfl, hi⟩
      exact ⟨e, he, rfl, (heligible e (slice_subset d he)).mp hi⟩
    · rintro ⟨e, he, rfl, hi⟩
      exact ⟨e, he, rfl, (heligible e (slice_subset d he)).mpr hi⟩
  · constructor
    · rintro ⟨e, he, rfl, hi⟩
      exact absurd hi (h.not_eligible hdone (h.toQueued.mem_iff (slice_subset d he)).1)
    · rintro ⟨e, he, rfl, hi⟩
      have hmem := h₁.toQueued.mem_iff (slice_subset d₁ he)
      rw [hqueue, hperm.length_eq] at hdone
      exact absurd hi (h₁.not_eligible hdone hmem.1)

/-- A decision with something left to serve has an eligible request, because the window reaches past
the requests served. -/
theorem Ready.exists_candidate (h : Ready c initial d) (hwindow : c.window = -1 ∨ 1 ≤ c.window)
    (hi : d.Eligible i) : ∃ j, d.Candidate d.slice j := by
  have hlt : i < d.requestQueue.length := by
    obtain ⟨state, hstate, _⟩ := hi
    rw [← h.states]
    exact (List.getElem?_eq_some_iff.mp hstate).1
  have hmore : d.served.length < d.requestQueue.length := by
    by_contra hdone
    exact h.not_eligible (by omega) hlt hi
  obtain ⟨endIndex, currWindow, hget, hend, _⟩ := h.getWindow hwindow hmore
  by_cases hfifo : d.policy = .FIFO
  · -- in order, the next request
    obtain ⟨block, hfirst⟩ := h.toQueued.entry hmore
    have hslice : d.slice = [(block, d.served.length)] := by
      unfold slice
      rw [hfifo]
      dsimp only
      rw [List.take_one, List.head?_drop, h.count, hfirst]
      rfl
    refine ⟨d.served.length, (block, d.served.length), ?_, rfl, ?_⟩
    · rw [hslice]
      exact List.mem_singleton_self _
    · rw [h.eligible _ hmore]
      intro hin
      have hlt := h.inOrder (h.policy.symm.trans hfifo) _ hin
      omega
  · have hreach : d.served.length < (min d.getWindow.1 d.requestQueue.length).toNat := by
      rw [hget]
      dsimp only
      omega
    obtain ⟨e, he, heligible⟩ := h.toQueued.exists_unserved hreach hmore
    rw [← slice_of_ne hfifo] at he
    exact ⟨e.2, e, he, rfl, heligible⟩

/-! ## Without batches -/

/-- Without batches the two versions of `GetWindow` are the same, and so are the functions that call
them. -/
theorem Precise.getWindow_unfair (hfair : d.fairWindow = -1) :
    Precise.getWindow d = d.getWindow := by
  unfold Precise.getWindow Disk.getWindow
  rw [if_neg (not_not.mpr hfair), if_neg (not_not.mpr hfair)]

theorem Precise.slice_unfair (hfair : d.fairWindow = -1) : Precise.slice d = d.slice := by
  by_cases hpolicy : d.policy = .FIFO
  · unfold Precise.slice Disk.slice
    rw [hpolicy]
  · rw [Disk.slice_of_ne hpolicy, Precise.slice_of_ne hpolicy, Precise.getWindow_unfair hfair]

theorem Precise.choose_unfair (hfair : d.fairWindow = -1) (est : Block → Rat) :
    Precise.choose d est = d.choose est := by
  have hwindow := Precise.getWindow_unfair hfair
  -- the same slice, cut before or by itself
  have htake : ∀ e : Int, d.requestQueue.take
      (if e > d.requestQueue.length then (d.requestQueue.length : Int) else e).toNat =
        d.requestQueue.take e.toNat := by
    intro e
    rw [List.take_eq_take_iff]
    split
    · omega
    · rfl
  obtain ⟨endIndex, hget⟩ : ∃ endIndex, d.getWindow = (endIndex, d) :=
    ⟨_, Prod.ext rfl (Disk.getWindow_unfair hfair)⟩
  rw [hget] at hwindow
  unfold Precise.choose Disk.choose
  cases d.policy with
  | FIFO => rfl
  | SATF =>
    dsimp only
    rw [hwindow, hget]
    dsimp only
    rw [htake]
  | BSATF =>
    dsimp only
    rw [hwindow, hget]
    dsimp only
    rw [htake]
  | SSTF =>
    dsimp only
    rw [hwindow, hget]

theorem Precise.getNextIo_unfair (hfair : d.fairWindow = -1) (est : Block → Rat) :
    Precise.getNextIo d est = d.getNextIo est := by
  unfold Precise.getNextIo Disk.getNextIo
  rw [Precise.choose_unfair hfair]

theorem endTransfer_fairWindow (h : d.endTransfer = .ok d') : d'.fairWindow = d.fairWindow := by
  unfold endTransfer at h
  obtain ⟨d₁, hdone, h⟩ := bind_eq_ok.mp h
  obtain ⟨currWindow, heq⟩ := updateWindow_eq { d₁ with
    requestCount := d₁.requestCount + 1
    served := d₁.served ++ d₁.currentIndex.toList }
  rw [← Except.ok.inj h, heq, switchState_frame hdone]

theorem Precise.transferred_unfair (hfair : d.fairWindow = -1) (est : Block → Rat) :
    Precise.transferred d est = d.transferred est := by
  rw [transferred_bind]
  unfold Precise.transferred
  cases hends : d.endTransfer with
  | error e => rfl
  | ok d₁ =>
    have hfair₁ : d₁.fairWindow = -1 := (endTransfer_fairWindow hends).trans hfair
    show (Precise.getNextIo d₁ est >>= _) = (d₁.getNextIo est >>= _)
    rw [Precise.getNextIo_unfair hfair₁]

/-- Without batches a tick of `disk-precise.py` is one of `disk.py`. -/
theorem InFlight.animate_unfair (h : InFlight c initial d i)
    (hnot : ¬(c.policy = .BSATF ∧ c.window ≠ -1)) (tick : Tick) :
    Precise.animate d tick = d.animate tick := by
  obtain ⟨d₁, harrive, h₁, _⟩ := h.arrive_eq tick
  rw [animate_bind]
  unfold Precise.animate
  rw [harrive]
  show (if d₁.state = .xfer ∧ tick.transferDone then Precise.transferred d₁ tick.est else pure d₁) =
    if d₁.state = .xfer ∧ tick.transferDone then d₁.transferred tick.est else pure d₁
  rw [Precise.transferred_unfair (h₁.toQueued.unfair hnot)]

/-- So every run of `disk-precise.py` without batches is one of `disk.py`. -/
theorem reachable_unfair (hvalid : ValidConfig c l)
    (hinitial : (makeRequests c.addr).mapM Block.toInt = .ok initial) (hne : initial ≠ [])
    (hnot : ¬(c.policy = .BSATF ∧ c.window ≠ -1)) (h : (Precise.simulation c).Reachable p) :
    (simulation c).Reachable p := by
  refine h.invariant ?_ ?_
  · rintro p ⟨est, hstart⟩
    have hw : c.window ≠ 0 := by
      rcases hvalid.window with hfull | hpos <;> omega
    have hnew := new_ok hvalid.layout hinitial
    have hfair : (fresh c l initial).fairWindow = -1 := if_neg hnot
    unfold Precise.start at hstart
    rw [if_neg hw, hnew] at hstart
    refine Lts.Reachable.of_init ⟨est, ?_⟩
    rw [start_eq hvalid.window hnew, ← Precise.getNextIo_unfair hfair]
    exact hstart
  · rintro p tick p' hreach ⟨hgoing, htick⟩
    obtain ⟨_, hfinished | ⟨i, hflight⟩⟩ := going_reachable hvalid hinitial hne hreach
    · rw [hfinished.done] at hgoing
      cases hgoing
    · rw [hflight.animate_unfair hnot] at htick
      exact hreach.step ⟨hgoing, htick⟩

/-! ## Pairs of decisions -/

/-- A decision of `disk-precise.py` that one of `disk.py` stands for. -/
def Mirrored (c : Config) (p : Disk) : Prop :=
  ∃ d, Decides (simulation c) c d ∧ d.served = p.served ∧ (∀ i, d.Eligible i ↔ p.Eligible i) ∧
    ∀ i, d.Candidate d.slice i ↔ p.Candidate (Precise.slice p) i

/-- If each decision of `disk-precise.py` is mirrored by one of `disk.py`, both programs schedule
from the same window. -/
theorem sameWindow_of_mirrored (hvalid : ValidConfig c l)
    (hinitial : (makeRequests c.addr).mapM Block.toInt = .ok initial) (hne : initial ≠ [])
    (hmirrored : ∀ p, Decides (Precise.simulation c) c p → Mirrored c p) : SameWindow c := by
  constructor
  · intro d p hd hp hperm i
    obtain ⟨d₁, hd₁, hserved, _, hcandidate⟩ := hmirrored p hp
    obtain ⟨hready, hcurr⟩ := hd.ready hvalid hinitial hne
    obtain ⟨hready₁, hcurr₁⟩ := hd₁.ready hvalid hinitial hne
    rw [← hserved] at hperm
    exact (hready.candidate_congr hready₁ hne hvalid.window hcurr hcurr₁ hperm i).trans
      (hcandidate i)
  · intro p hp i hi
    obtain ⟨d₁, hd₁, _, heligible, hcandidate⟩ := hmirrored p hp
    obtain ⟨hready₁, _⟩ := hd₁.ready hvalid hinitial hne
    obtain ⟨j, hj⟩ := hready₁.exists_candidate hvalid.window ((heligible i).mpr hi)
    exact ⟨j, (hcandidate j).mp hj⟩

theorem mirrored_unfair (hvalid : ValidConfig c l)
    (hinitial : (makeRequests c.addr).mapM Block.toInt = .ok initial) (hne : initial ≠ [])
    (hnot : ¬(c.policy = .BSATF ∧ c.window ≠ -1)) (h : Decides (Precise.simulation c) c p) :
    Mirrored c p := by
  have hdecides : Decides (simulation c) c p := by
    cases h with
    | first hnew => exact .first hnew
    | next hreach hgoing harrive hends hafter =>
      exact .next (reachable_unfair hvalid hinitial hne hnot hreach) hgoing harrive hends hafter
  have hfair := (hdecides.ready hvalid hinitial hne).1.toQueued.unfair hnot
  exact ⟨p, hdecides, rfl, fun _ => Iff.rfl, fun i => by rw [Precise.slice_unfair hfair]⟩

/-- In batches a decision is mirrored by that of the disk beside it, when both windows end with the
same request. -/
theorem Ready.mirrored (h : Ready c initial d) (hb : InBatches c w)
    (hd : Decides (simulation c) c d) (hsame : SameEndAt c initial w d.served.length) :
    Mirrored c (d.withWindow (keptWindow c initial w (d.served.length - 1))) := by
  have hpolicy : d.policy ≠ .FIFO := by
    rw [h.policy, hb.policy]
    decide
  refine ⟨d, hd, rfl, fun _ => Iff.rfl, fun i => ?_⟩
  rcases Nat.lt_or_ge d.served.length d.requestQueue.length with hmore | hdone
  · have hslice : Precise.slice (d.withWindow (keptWindow c initial w (d.served.length - 1))) =
        d.slice := by
      unfold SameEndAt SameEnd at hsame
      rw [← h.queue_length] at hsame
      rw [slice_of_ne hpolicy, Precise.slice_of_ne (by exact hpolicy), h.getWindow_kept hb,
        h.getWindow_batch hb hmore]
      show d.requestQueue.take (min (keptWindow c initial w d.served.length)
        (d.requestQueue.length : Int)).toNat = _
      rw [List.take_eq_take_iff]
      unfold keptWindow
      dsimp only
      omega
    rw [hslice]
    exact Iff.rfl
  · -- nothing is eligible
    have hnone : ∀ e ∈ d.requestQueue, ¬ d.Eligible e.2 :=
      fun e he => h.not_eligible hdone (h.toQueued.mem_iff he).1
    constructor
    · rintro ⟨e, he, rfl, hi⟩
      exact absurd hi (hnone e (slice_subset d he))
    · rintro ⟨e, he, rfl, hi⟩
      rw [Precise.slice_of_ne (by exact hpolicy)] at he
      have hmem : e ∈ d.requestQueue := (List.take_sublist _ _).subset he
      exact absurd hi (hnone e hmem)

/-- All decisions in batches are mirrored, if both windows end with the same request at each of
them. -/
theorem mirrored_batches (hvalid : ValidConfig c l)
    (hinitial : (makeRequests c.addr).mapM Block.toInt = .ok initial) (hne : initial ≠ [])
    (hb : InBatches c w)
    (hsame : ∀ d, (simulation c).Reachable d → d.isDone = false →
      SameEndAt c initial w (d.served.length + 1))
    (h : Decides (Precise.simulation c) c p) : Mirrored c p := by
  have hnew := new_ok hvalid.layout hinitial
  cases h with
  | first hp =>
    obtain rfl := Except.ok.inj (hnew.symm.trans hp)
    have hready : Ready c initial (fresh c l initial) := ready_fresh
    have hmirrored := hready.mirrored hb (.first hnew) (sameEnd_of_lt hb.pos)
    rwa [fresh_kept hb] at hmirrored
  | @next p₀ p₁ _ tick hreach hgoing harrive hends hafter =>
    obtain ⟨d, hd, y, rfl, hy⟩ := shadow_of_reachable hvalid hinitial hne hb hsame hreach
    have hgoing' : d.isDone = false := hgoing
    obtain rfl := hy hgoing'
    obtain ⟨_, hfinished | ⟨i, hflight⟩⟩ := going_reachable hvalid hinitial hne hd
    · rw [hfinished.done] at hgoing'
      cases hgoing'
    · obtain ⟨d₁, harrive', h₁, _, _, hserved, _⟩ := hflight.arrive_eq tick
      rw [arrive_withWindow, harrive'] at harrive
      obtain rfl := Except.ok.inj harrive
      have hfair := h₁.toQueued.fair_ne hb
      rw [endTransfer_withWindow hfair, h₁.endTransfer_eq] at hafter
      obtain rfl := Except.ok.inj hafter
      have hready := h₁.serve hne hvalid.window
      have hlength : (d₁.afterTransfer i).served.length = d.served.length + 1 := by
        rw [afterTransfer_length, hserved]
      have hmirrored := hready.mirrored hb (.next hd hgoing' harrive' hends h₁.endTransfer_eq)
        (by rw [hlength]; exact hsame d hd hgoing')
      rwa [hlength, Nat.add_sub_cancel] at hmirrored

/-! ## Late requests that are pieces of text -/

/-- A late request that is text stands in the window from the second decision on, and has no track;
so the decision fails. -/
theorem Ready.getNextIo_text (h : Ready c initial d) (hb : InBatches c w)
    (hfew : initial.length < w) {s : Str} (htext : (makeRequests c.lateAddr)[0]? = some (.str s))
    (hserved : 1 ≤ d.served.length) : d.getNextIo est ≠ .ok d' := by
  intro hnext
  obtain ⟨hlate, _⟩ := List.getElem?_eq_some_iff.mp htext
  have hlength := h.queue_length
  have hentry : d.requestQueue[initial.length]? = some (.str s, initial.length) := by
    rw [h.queue, h.lateCount, h.lateRequests, List.getElem?_zipIdx,
      List.getElem?_append_right (by rw [List.length_map]), List.length_map, Nat.sub_self,
      List.getElem?_take, if_pos (by omega), htext]
    simp
  have hlt : initial.length < d.requestQueue.length := by omega
  have hunserved : initial.length ∉ d.served := by
    intro hin
    -- what has been served has a track
    obtain ⟨block, hblock, htrack⟩ := h.tracks _ hin
    rw [hentry] at hblock
    obtain ⟨rfl, _⟩ := Prod.mk.inj (Option.some.inj hblock)
    exact htrack.ne_str s rfl
  have heligible := (h.eligible _ hlt).mpr hunserved
  have hmore : d.served.length < d.requestQueue.length := by
    by_contra hdone
    exact h.not_eligible (by omega) hlt heligible
  obtain ⟨r, hchoose⟩ : ∃ r, d.choose est = .ok r := by
    unfold Disk.getNextIo at hnext
    rw [if_neg (by rw [h.count]; omega)] at hnext
    obtain ⟨r, hchoose, _⟩ := bind_eq_ok.mp hnext
    exact ⟨r, hchoose⟩
  rw [choose_bsatf (h.policy.trans hb.policy) (h.getWindow_batch hb hmore),
    doSATF_withWindow] at hchoose
  obtain ⟨chosen, hsatf⟩ : ∃ chosen, d.doSATF est (d.requestQueue.take
      (if ((batchEnd w d.served.length : Nat) : Int) > d.requestQueue.length then
        (d.requestQueue.length : Int) else (batchEnd w d.served.length : Nat)).toNat) =
          .ok chosen := by
    cases hsatf : d.doSATF est (d.requestQueue.take
        (if ((batchEnd w d.served.length : Nat) : Int) > d.requestQueue.length then
          (d.requestQueue.length : Int) else (batchEnd w d.served.length : Nat)).toNat) with
    | ok chosen => exact ⟨chosen, rfl⟩
    | error e =>
      have herror : (Except.error e : Except Abort (Block × Option Nat)).map _ = .ok r :=
        (congrArg (Except.map _) hsatf).symm.trans hchoose
      cases herror
  -- every batch goes past the initial requests
  have hfirst : w ≤ batchEnd w d.served.length := by
    unfold batchEnd
    exact Nat.le_mul_of_pos_right w (Nat.succ_pos _)
  have hmem : (Block.str s, initial.length) ∈ d.requestQueue.take
      (if ((batchEnd w d.served.length : Nat) : Int) > d.requestQueue.length then
        (d.requestQueue.length : Int) else (batchEnd w d.served.length : Nat)).toNat := by
    refine List.mem_of_getElem? (i := initial.length) ?_
    rw [List.getElem?_take, if_pos (by split <;> omega), hentry]
  exact (doSATF_onTrack hsatf _ hmem heligible).ne_str s rfl

/-- With such a request nothing is ever served, for the run ends with the decision that follows the
first transfer. -/
theorem served_nil_of_text (hvalid : ValidConfig c l)
    (hinitial : (makeRequests c.addr).mapM Block.toInt = .ok initial) (hne : initial ≠ [])
    (hb : InBatches c w) (hfew : initial.length < w) {s : Str}
    (htext : (makeRequests c.lateAddr)[0]? = some (.str s)) (h : (simulation c).Reachable d) :
    Going c initial d ∧ d.served = [] := by
  refine h.invariant (I := fun d => Going c initial d ∧ d.served = []) ?_ ?_
  · rintro d ⟨est, hstart⟩
    rw [start_eq hvalid.window (new_ok hvalid.layout hinitial)] at hstart
    obtain ⟨hserved, _, hcases⟩ := ready_fresh.getNextIo_cases hne hvalid.window hstart
    exact ⟨hcases.imp_left And.left, hserved⟩
  · rintro d tick d' ⟨hgoing, hnone⟩ ⟨hnotDone, htick⟩
    rcases hgoing with hfinished | ⟨i, hflight⟩
    · rw [hfinished.done] at hnotDone
      cases hnotDone
    · refine ⟨(hflight.animate_cases hne hvalid.window htick).1, ?_⟩
      obtain ⟨d₁, h₁, _, _, hserved, _, heq⟩ := hflight.animate_eq tick
      rw [heq] at htick
      split at htick
      · -- the transfer has ended, and the next decision aborts
        rw [h₁.transferred_eq] at htick
        obtain ⟨d₂, hnext, _⟩ := bind_eq_ok.mp htick
        have hone : 1 ≤ (d₁.afterTransfer i).served.length := by
          rw [afterTransfer_length]
          omega
        exact absurd hnext ((h₁.serve hne hvalid.window).getNextIo_text hb hfew htext hone)
      · obtain rfl := Except.ok.inj htick
        exact hserved.trans hnone

/-! ## A window that has been cut too early -/

/-- Both simulators serve the first batch alike: there is a run of `disk.py` that serves one request
a tick, with one of `disk-precise.py` beside it. -/
theorem exists_lockstep (hvalid : ValidConfig c l)
    (hinitial : (makeRequests c.addr).mapM Block.toInt = .ok initial) (hne : initial ≠ [])
    (hserves : ServesAll c) (hb : InBatches c w) (hfew : initial.length < w)
    (hlate : w < (makeRequests c.lateAddr).length) (hk : k ≤ w) :
    ∃ d i, (simulation c).Reachable d ∧ InFlight c initial d i ∧ d.served.length = k ∧
      (Precise.simulation c).Reachable (d.withWindow (keptWindow c initial w k)) := by
  have hflight : ∀ {d : Disk}, Going c initial d → d.served.length ≤ w →
      ∃ i, InFlight c initial d i := by
    rintro d (hfinished | hflight) hle
    · -- all requests are more than one batch
      have hperm := hfinished.served_perm.length_eq
      rw [List.length_range] at hperm
      omega
    · exact hflight
  induction k with
  | zero =>
    obtain ⟨d, hd⟩ := hserves.starts fun _ => 0
    have hreach : (simulation c).Reachable d := Lts.Reachable.of_init ⟨_, hd⟩
    obtain ⟨_, hgoing⟩ := going_reachable hvalid hinitial hne hreach
    have hnone : d.served = [] := start_served hvalid hinitial hne hd
    obtain ⟨i, hi⟩ := hflight hgoing (by rw [hnone]; exact Nat.zero_le w)
    obtain ⟨y, heq, hy⟩ := start_kept hvalid hinitial hb fun _ => 0
    obtain rfl := hy d hd hi.going
    refine ⟨d, i, hreach, hi, by rw [hnone]; rfl, Lts.Reachable.of_init ⟨fun _ => 0, ?_⟩⟩
    rw [heq, hd]
    rfl
  | succ k ih =>
    obtain ⟨d, i, hreach, hi, hlength, hprecise⟩ := ih (by omega)
    -- a tick that brings everything ends the transfer
    obtain ⟨d', htick⟩ := hserves.goes d hreach hi.going ⟨true, true, true, fun _ => 0⟩
    obtain ⟨hgoing, _, hserved⟩ := hi.animate_cases hne hvalid.window htick
    have hlength' : d'.served.length = k + 1 := by
      rw [hserved rfl rfl rfl, List.length_append, List.length_singleton, hlength]
    obtain ⟨j, hj⟩ := hflight hgoing (by omega)
    obtain ⟨y, heq, hy⟩ := hi.animate_kept hne hb
      (sameEnd_of_le hb.pos hfew hlate (by omega)) ⟨true, true, true, fun _ => 0⟩
    rw [hlength] at heq
    have hkept := hy d' htick hj.going
    rw [hlength'] at hkept
    obtain rfl := hkept
    rw [htick] at heq
    exact ⟨d', j, hreach.step ⟨hi.going, htick⟩, hj, hlength', hprecise.step ⟨hi.going, heq⟩⟩

/-- At the decision after the first one of the second batch only `disk.py` sees the request that has
come last. -/
theorem not_sameWindow (hvalid : ValidConfig c l)
    (hinitial : (makeRequests c.addr).mapM Block.toInt = .ok initial) (hne : initial ≠ [])
    (hserves : ServesAll c) (hb : InBatches c w) (hfew : initial.length < w)
    (hlate : w < (makeRequests c.lateAddr).length) : ¬ SameWindow c := by
  intro hsame
  have hfirst := List.length_pos_iff.mpr hne
  obtain ⟨d, i, hreach, hi, hlength, hprecise⟩ :=
    exists_lockstep hvalid hinitial hne hserves hb hfew hlate (Nat.le_refl w)
  obtain ⟨_, hfits⟩ := fits_reachable hvalid hinitial hne hreach
  obtain ⟨d₁, harrive, h₁, _, _, hserved, hxfer⟩ :=
    hi.arrive_eq ⟨true, true, true, fun _ => 0⟩
  have hstate := hxfer rfl rfl
  have hready := h₁.serve hne hvalid.window
  have hfair := h₁.toQueued.fair_ne hb
  have hdisk : Decides (simulation c) c (d₁.afterTransfer i) :=
    .next hreach hi.going harrive ⟨hstate, rfl⟩ h₁.endTransfer_eq
  have harrive' : (d.withWindow (keptWindow c initial w w)).arrive ⟨true, true, true, fun _ => 0⟩ =
      .ok (d₁.withWindow (keptWindow c initial w w)) := by
    rw [arrive_withWindow, harrive]
    rfl
  have hends' : (d₁.withWindow (keptWindow c initial w w)).endTransfer =
      .ok ((d₁.afterTransfer i).withWindow (keptWindow c initial w w)) := by
    rw [endTransfer_withWindow hfair, h₁.endTransfer_eq]
    rfl
  have hshadow : Decides (Precise.simulation c) c
      ((d₁.afterTransfer i).withWindow (keptWindow c initial w w)) :=
    .next hprecise hi.going harrive' ⟨hstate, rfl⟩ hends'
  have hlength' : (d₁.afterTransfer i).served.length = w + 1 := by
    rw [afterTransfer_length, hserved, hlength]
  obtain ⟨hcut, hbehind⟩ := clippedWindow_next (by omega) hfew hlate
  have hqueue := hready.queue_length
  rw [hlength'] at hqueue
  rw [← hqueue] at hbehind
  have hmore : (d₁.afterTransfer i).served.length < (d₁.afterTransfer i).requestQueue.length := by
    omega
  have hpolicy : (d₁.afterTransfer i).policy ≠ .FIFO := by
    rw [hready.policy, hb.policy]
    decide
  have hnew : initial.length + w < (d₁.afterTransfer i).requestQueue.length := by omega
  obtain ⟨block, hentry⟩ := hready.toQueued.entry hnew
  -- the request is eligible in `disk.py`
  have hcandidate : (d₁.afterTransfer i).Candidate (d₁.afterTransfer i).slice
      (initial.length + w) := by
    refine ⟨(block, initial.length + w), ?_, rfl, (hready.eligible _ hnew).mpr ?_⟩
    · rw [slice_of_ne hpolicy, hready.getWindow_batch hb hmore, hlength']
      refine List.mem_of_getElem? (i := initial.length + w) ?_
      dsimp only
      rw [List.getElem?_take, if_pos (by omega), hentry]
    · have hfits₁ : ∀ j ∈ (d₁.afterTransfer i).served, j < initial.length + w := by
        intro j hj
        rw [afterTransfer_served, hserved] at hj
        rcases List.mem_append.mp hj with hold | hlast
        · have hlt := hfits.served j hold
          omega
        · have hlt := hfits.current hi.going i hi.index
          rw [List.mem_singleton.mp hlast]
          omega
      intro hin
      exact absurd (hfits₁ _ hin) (Nat.lt_irrefl _)
  obtain ⟨e, he, heq, _⟩ := (hsame.same _ _ hdisk hshadow (List.Perm.refl _) _).mp hcandidate
  -- and behind the window of `disk-precise.py`
  have hkept := hready.getWindow_kept hb
  rw [hlength', Nat.add_sub_cancel] at hkept
  rw [Precise.slice_of_ne (by exact hpolicy), hkept] at he
  have hlt := hready.toQueued.lt_of_mem_take he
  dsimp only at hlt
  unfold keptWindow at hlt
  rw [hcut] at hlt
  omega

/-! ## When the windows are the same -/

/-- The simulators schedule from the same window unless requests come late to a second batch that
reaches past the initial ones, and are numbers. -/
theorem sameWindow_iff (hvalid : ValidConfig c l) : SameWindow c ↔
    c.policy ≠ .BSATF ∨ c.window = -1 ∨ c.window ≤ (makeRequests c.addr).length ∨
      (makeRequests c.lateAddr).length ≤ c.window ∨ ∃ addr, c.lateAddr = .listed addr := by
  obtain ⟨initial, hinitial, hne, hlength, _⟩ := hvalid.exists_initial
  rw [← hlength]
  have hfirst := List.length_pos_iff.mpr hne
  by_cases hfair : c.policy = .BSATF ∧ c.window ≠ -1
  · obtain ⟨w, hw⟩ : ∃ w : Nat, c.window = w := by
      rcases hvalid.window with hfull | hpos
      · exact absurd hfull hfair.2
      · exact ⟨c.window.toNat, by omega⟩
    have hb : InBatches c w := ⟨hfair.1, by have := hvalid.window; omega, hw⟩
    -- A first batch within the initial requests, or no late request behind it, is cut alike by
    -- both.
    have hsame : w ≤ initial.length ∨ (makeRequests c.lateAddr).length ≤ w →
        SameWindow c := fun hfew =>
      sameWindow_of_mirrored hvalid hinitial hne fun p hp =>
        mirrored_batches hvalid hinitial hne hb (fun d _ _ => sameEnd hb.pos hfew _) hp
    constructor
    · intro h
      by_contra hnot
      push Not at hnot
      obtain ⟨_, _, hfew, hlate, hnumbers⟩ := hnot
      -- Otherwise a run serves everything and so reaches the cut.
      have hserves : ServesAll c := by
        cases haddr : c.lateAddr with
        | generated blocks => exact servesAll_of_generated hvalid haddr
        | listed addr => exact absurd haddr (hnumbers addr)
      exact not_sameWindow hvalid hinitial hne hserves hb (by omega) (by omega) h
    · -- a cut that does not come, comes at the end, or comes in a run that has aborted
      rintro (hpolicy | hfull | hfew | hlate | ⟨addr, haddr⟩)
      · exact absurd hfair.1 hpolicy
      · exact absurd hfull hfair.2
      · exact hsame (Or.inl (by omega))
      · exact hsame (Or.inr (by omega))
      · rcases Nat.lt_or_ge initial.length w with hfew | hmany
        · -- nothing is served after the first request
          obtain ⟨s, rest, hsplit⟩ := List.exists_cons_of_ne_nil
            (show split addr ',' ≠ [] from List.splitOn_ne_nil ',' addr)
          have htext : (makeRequests c.lateAddr)[0]? = some (.str s) := by
            rw [haddr, makeRequests, hsplit]
            rfl
          refine sameWindow_of_mirrored hvalid hinitial hne fun p hp =>
            mirrored_batches hvalid hinitial hne hb (fun d hd _ => ?_) hp
          rw [(served_nil_of_text hvalid hinitial hne hb hfew htext hd).2]
          exact sameEnd_of_lt (by show 0 + 1 < w; omega)
        · exact hsame (Or.inl hmany)
  · constructor
    · intro _
      by_cases hpolicy : c.policy = .BSATF
      · exact Or.inr (Or.inl (not_not.mp fun hw => hfair ⟨hpolicy, hw⟩))
      · exact Or.inl hpolicy
    · intro _
      exact sameWindow_of_mirrored hvalid hinitial hne fun p hp =>
        mirrored_unfair hvalid hinitial hne hfair hp

theorem sameWindow_iff_ofTwo : SameWindow batchesOfTwo :=
  (sameWindow_iff validConfig_batchesOfTwo).mpr (Or.inr (Or.inr (Or.inl (by decide))))

/-- Block 0, then blocks 1, 2 and 3 late, in batches of 2. -/
def cutEarly : Config := ⟨(30, 30, 30), .BSATF, 2, .generated [0], .generated [1, 2, 3]⟩

theorem cutEarly_differs : ValidConfig cutEarly ⟨12, 12, 12⟩ ∧ ¬ SameWindow cutEarly := by
  have hnumbers : (∀ block ∈ makeRequests cutEarly.addr, isNumber ⟨12, 12, 12⟩ block = true) ∧
      ∀ block ∈ makeRequests cutEarly.lateAddr, isNumber ⟨12, 12, 12⟩ block = true := by
    decide +kernel
  have hvalid : ValidConfig cutEarly ⟨12, 12, 12⟩ :=
    ⟨rfl, Or.inr (by decide), by decide,
      fun block hblock => exists_of_isNumber (hnumbers.1 block hblock),
      fun block hblock => exists_of_isNumber (hnumbers.2 block hblock)⟩
  have hb : InBatches cutEarly 2 := ⟨rfl, by decide, rfl⟩
  have hinitial : (makeRequests cutEarly.addr).mapM Block.toInt = .ok [0] := by decide +kernel
  exact ⟨hvalid, not_sameWindow hvalid hinitial (by decide) (servesAll_of_generated hvalid rfl) hb
    (by decide) (by decide)⟩

end Disk

end OsLab.Disks
