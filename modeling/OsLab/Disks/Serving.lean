import Mathlib.Tactic.NormNum
import OsLab.Disks.Choosing

/-!
# From one request to the next

The invariant of the simulation. The scheduling window reaches past the requests that have been
served, and the queue grows by a late request for each decision, so the counter meets the queue's
length only when no late request is left.

* **`Window`**, **`WindowBefore`**, **`Queued`** -- the window as a function of the number of
  requests served, and what holds of the queue at all times.
* **`Ready`**, **`Chosen`**, **`InFlight`**, **`Finished`** -- the places in the loop: in front of a
  decision, behind the choice, between ticks, and at the end.
* **`Ready.choose_cases`**, **`Ready.getNextIo_cases`**, **`Ready.getNextIo_total`** -- what a
  decision chooses, where it leads, and that it succeeds if everything is on a track.
* **`InFlight.serve`**, **`InFlight.transferred_cases`** -- the end of a transfer leads in front of
  the next decision.
* **`Going`**, **`InFlight.animate_cases`**, **`InFlight.animate_total`** -- the same for a whole
  tick.
-/

namespace OsLab.Disks

namespace Disk

variable {d d' : Disk} {est : Block → Rat} {i : Nat}

/-! ## The invariant -/

/-- The window when `k` requests have been served and the next has been chosen. -/
def Window (c : Config) (initial late k : Nat) (currWindow : Int) : Prop :=
  if c.window = -1 then currWindow = -1
  else if c.policy = .BSATF then currWindow = c.window * ((k : Int) / c.window + 1)
  else min (c.window + k) (initial + min k late : Nat) ≤ currWindow

/-- The window before it is chosen: a batch ends when the next request is looked for. -/
def WindowBefore (c : Config) (initial late k : Nat) (currWindow : Int) : Prop :=
  if c.window = -1 then currWindow = -1
  else if c.policy = .BSATF then currWindow = c.window * (((k - 1 : Nat) : Int) / c.window + 1)
  else min (c.window + k) (initial + min k late : Nat) ≤ currWindow

/-- What holds at every decision and between them. -/
structure Queued (c : Config) (initial : List Int) (d : Disk) : Prop where
  policy : d.policy = c.policy
  fairWindow : d.fairWindow = if c.policy = .BSATF ∧ c.window ≠ -1 then c.window else -1
  lateRequests : d.lateRequests = makeRequests c.lateAddr
  queue : d.requestQueue = (initial.map Block.int ++ d.lateRequests.take d.lateCount).zipIdx
  states : d.requestState.length = d.requestQueue.length
  count : d.requestCount = d.served.length
  nodup : d.served.Nodup
  tracks : ∀ i ∈ d.served, ∃ block, d.requestQueue[i]? = some (block, i) ∧ OnTrack d.layout block
  eligible : ∀ i < d.requestQueue.length, d.Eligible i ↔ i ∉ d.served
  inOrder : c.policy = .FIFO → ∀ i ∈ d.served, i < d.served.length
  armTrack : d.armTrack ≤ 2
  armTarget : d.armTarget ≤ 2
  going : d.isDone = false

/-- In front of a decision. -/
structure Ready (c : Config) (initial : List Int) (d : Disk) : Prop extends Queued c initial d where
  lateCount : d.lateCount = min d.served.length d.lateRequests.length
  window : WindowBefore c initial.length d.lateRequests.length d.served.length d.currWindow

/-- Request `i` has been chosen. -/
structure Chosen (c : Config) (initial : List Int) (d : Disk) (i : Nat) : Prop
    extends Queued c initial d where
  window : Window c initial.length d.lateRequests.length d.served.length d.currWindow
  index : d.currentIndex = some i
  block : d.requestQueue[i]? = some (d.currentBlock, i)
  unserved : i ∉ d.served
  first : c.policy = .FIFO → i = d.served.length
  onTrack : OnTrack d.layout d.currentBlock

/-- Request `i` is being served, and a late request has come for it. -/
structure InFlight (c : Config) (initial : List Int) (d : Disk) (i : Nat) : Prop
    extends Chosen c initial d i where
  lateCount : d.lateCount = min (d.served.length + 1) d.lateRequests.length
  state : d.state = .seek ∨ d.state = .rotate ∨ d.state = .xfer

/-- Everything has been served. -/
structure Finished (c : Config) (initial : List Int) (d : Disk) : Prop where
  done : d.isDone = true
  queue : d.requestQueue = (initial.map Block.int ++ makeRequests c.lateAddr).zipIdx
  served : d.served.Perm (List.range d.requestQueue.length)
  tracks : ∀ i ∈ d.served, ∃ block, d.requestQueue[i]? = some (block, i) ∧ OnTrack d.layout block

section Decisions

variable {c : Config} {initial : List Int}

/-- The queue holds the requests of the start and the late ones that have come. -/
theorem Queued.length (h : Queued c initial d) :
    d.requestQueue.length = initial.length + min d.lateCount d.lateRequests.length := by
  rw [h.queue, List.length_zipIdx, List.length_append, List.length_map, List.length_take]

theorem Queued.lt (h : Queued c initial d) : ∀ i ∈ d.served, i < d.requestQueue.length := by
  intro i hi
  obtain ⟨block, hblock, _⟩ := h.tracks i hi
  exact (List.getElem?_eq_some_iff.mp hblock).1

/-- The entries of the queue are numbered in order, so a request's number is its place. -/
theorem Queued.entry (h : Queued c initial d) (hi : i < d.requestQueue.length) :
    ∃ block, d.requestQueue[i]? = some (block, i) := by
  rw [h.queue, List.length_zipIdx] at hi
  rw [h.queue]
  obtain ⟨block, hblock⟩ : ∃ block,
      (initial.map Block.int ++ d.lateRequests.take d.lateCount)[i]? = some block :=
    ⟨_, List.getElem?_eq_getElem hi⟩
  refine ⟨block, ?_⟩
  rw [List.getElem?_zipIdx, hblock, Option.map_some, Nat.zero_add]

theorem Queued.entry_eq (h : Queued c initial d) {e : Block × Nat} (he : e ∈ d.requestQueue) :
    d.requestQueue[e.2]? = some e := by
  obtain ⟨k, hk⟩ := List.mem_iff_getElem?.mp he
  obtain ⟨hlt, _⟩ := List.getElem?_eq_some_iff.mp hk
  obtain ⟨block, hblock⟩ := h.entry hlt
  obtain rfl : (block, k) = e := Option.some.inj (hblock.symm.trans hk)
  exact hk

/-- No more requests have been served than there are, for none is served twice. -/
theorem Queued.served_length_le (h : Queued c initial d) :
    d.served.length ≤ d.requestQueue.length := by
  have hsubset : d.served ⊆ List.range d.requestQueue.length :=
    fun i hi => List.mem_range.mpr (h.lt i hi)
  have hle := (List.subperm_of_subset h.nodup hsubset).length_le
  rwa [List.length_range] at hle

/-- With nothing left to serve there is no late request either: one has come for each decision. -/
theorem Ready.finished (h : Ready c initial d) (hinitial : initial ≠ [])
    (hdone : d.requestCount = d.requestQueue.length) :
    Finished c initial { d with isDone := true } := by
  have hpos := List.length_pos_iff.mpr hinitial
  have hlength := h.length
  have hlate := h.lateCount
  rw [h.count] at hdone
  refine ⟨rfl, ?_, ?_, h.tracks⟩
  · show d.requestQueue = _
    rw [h.queue, ← h.lateRequests, List.take_of_length_le (by omega)]
  · have hsubset : d.served ⊆ List.range d.requestQueue.length :=
      fun i hi => List.mem_range.mpr (h.lt i hi)
    refine (List.subperm_of_subset h.nodup hsubset).perm_of_length_le ?_
    rw [List.length_range]
    exact Nat.le_of_eq hdone.symm

/-- The end of the batch that `k` is in, from that of `k - 1`. This is how `GetWindow` moves on. -/
theorem batch (k w : Nat) :
    (if k > 0 ∧ k % w = 0 then w * ((k - 1) / w + 1) + w else w * ((k - 1) / w + 1)) =
      w * (k / w + 1) := by
  cases k with
  | zero => simp
  | succ k =>
    rw [Nat.add_sub_cancel, Nat.succ_div]
    by_cases hends : w ∣ k + 1
    · rw [if_pos ⟨Nat.succ_pos k, Nat.mod_eq_zero_of_dvd hends⟩, if_pos hends, ← Nat.mul_succ]
    · rw [if_neg (fun hboth => hends (Nat.dvd_of_mod_eq_zero hboth.2)), if_neg hends, Nat.add_zero]

/-- `GetWindow` returns an end behind the `k` requests that have been served, whatever the policy
and the window. -/
theorem Ready.getWindow (h : Ready c initial d) (hwindow : c.window = -1 ∨ 1 ≤ c.window)
    (hmore : d.served.length < d.requestQueue.length) :
    ∃ endIndex currWindow, d.getWindow = (endIndex, { d with currWindow := currWindow }) ∧
      (d.served.length : Int) < endIndex ∧
      Window c initial.length d.lateRequests.length d.served.length currWindow := by
  have hlength := h.length
  rw [h.lateCount] at hlength
  have hbefore := h.window
  have hfair := h.fairWindow
  unfold WindowBefore at hbefore
  unfold Disk.getWindow
  -- Without a window the whole queue is looked at and `currWindow` is never touched.
  rcases hwindow with hfull | hpos
  · rw [if_pos hfull] at hbefore
    refine ⟨d.requestQueue.length, d.currWindow, ?_, by omega, ?_⟩
    · rw [if_pos (by omega)]
    · rw [Window, if_pos hfull, hbefore]
  have hne : c.window ≠ -1 := by omega
  rw [if_neg hne] at hbefore
  by_cases hpolicy : c.policy = .BSATF
  · -- the batch that the number of served requests is in
    rw [if_pos hpolicy] at hbefore
    rw [if_pos ⟨hpolicy, hne⟩] at hfair
    obtain ⟨w, hw⟩ := Int.eq_ofNat_of_zero_le (show 0 ≤ c.window by omega)
    have hbefore' : d.currWindow = (w * ((d.served.length - 1) / w + 1) : Nat) := by
      rw [hbefore, hw]
      norm_cast
    have hafter : ∀ currWindow,
        Window c initial.length d.lateRequests.length d.served.length currWindow ↔
          currWindow = (w * (d.served.length / w + 1) : Nat) := by
      intro currWindow
      rw [Window, if_neg hne, if_pos hpolicy, hw]
      norm_cast
    have hbatch := batch d.served.length w
    have hbehind := Nat.lt_mul_div_succ d.served.length (show 0 < w by omega)
    rw [if_neg (by omega), if_pos (by omega)]
    -- The window moves on once the batch before is served.
    by_cases hends : d.served.length > 0 ∧ d.served.length % w = 0
    · have hends' : d.requestCount > 0 ∧ (d.requestCount : Int) % d.fairWindow = 0 := by
        rw [h.count, hfair, hw]
        exact ⟨hends.1, by exact_mod_cast hends.2⟩
      rw [if_pos hends] at hbatch
      simp only [if_pos hends']
      refine ⟨_, _, rfl, ?_, (hafter _).mpr ?_⟩ <;> omega
    · have hends' : ¬ (d.requestCount > 0 ∧ (d.requestCount : Int) % d.fairWindow = 0) := by
        rw [h.count, hfair, hw]
        exact fun hboth => hends ⟨hboth.1, by exact_mod_cast hboth.2⟩
      rw [if_neg hends] at hbatch
      simp only [if_neg hends']
      refine ⟨d.currWindow, d.currWindow, rfl, ?_, (hafter _).mpr ?_⟩ <;> omega
  -- Other policies move the window after each transfer, so here it is in place.
  · rw [if_neg hpolicy] at hbefore
    rw [if_neg (fun hboth => hpolicy hboth.1)] at hfair
    rw [if_neg (by omega), if_neg (by omega)]
    refine ⟨d.currWindow, d.currWindow, rfl, by omega, ?_⟩
    rw [Window, if_neg hne, if_neg hpolicy]
    exact hbefore

/-- What is eligible in the queue is what has not been served. -/
theorem Queued.mem_iff (h : Queued c initial d) {e : Block × Nat} (he : e ∈ d.requestQueue) :
    e.2 < d.requestQueue.length ∧ (d.Eligible e.2 ↔ e.2 ∉ d.served) := by
  obtain ⟨hlt, _⟩ := List.getElem?_eq_some_iff.mp (h.entry_eq he)
  exact ⟨hlt, h.eligible e.2 hlt⟩

theorem Ready.window_of_ne (h : Ready c initial d) (hpolicy : c.policy ≠ .BSATF) :
    Window c initial.length d.lateRequests.length d.served.length d.currWindow := by
  have hbefore := h.window
  unfold WindowBefore at hbefore
  unfold Window
  rw [if_neg hpolicy] at hbefore ⊢
  exact hbefore

/-- A part of the queue is searched for what has not been served. -/
theorem Queued.doSATF_unserved (h : Queued c initial d) {rList : List (Block × Nat)}
    (hsub : rList ⊆ d.requestQueue) (currWindow : Int) {chosen : Block × Option Nat}
    (hdo : doSATF { d with currWindow := currWindow } est rList = .ok chosen) :
    ∃ e ∈ rList, chosen = (e.1, some e.2) ∧ e.2 ∉ d.served ∧ OnTrack d.layout e.1 := by
  obtain ⟨e, he, hchosen, heligible, htrack⟩ := doSATF_cases hdo
  exact ⟨e, he, hchosen, (h.mem_iff (hsub he)).2.mp heligible, htrack⟩

/-- What `choose` chooses has not been served and is on a track; under FIFO it is the next one in
the queue. -/
theorem Ready.choose_cases (h : Ready c initial d) (hwindow : c.window = -1 ∨ 1 ≤ c.window)
    (hmore : d.served.length < d.requestQueue.length) {chosen : Block × Option Nat}
    (hchoose : d.choose est = .ok (chosen, d')) :
    ∃ e ∈ d.requestQueue, ∃ currWindow, chosen = (e.1, some e.2) ∧ e.2 ∉ d.served ∧
      OnTrack d.layout e.1 ∧ (c.policy = .FIFO → e.2 = d.served.length) ∧
      d' = { d with currWindow := currWindow } ∧
      Window c initial.length d.lateRequests.length d.served.length currWindow := by
  obtain ⟨endIndex, currWindow, hget, _, hafter⟩ := h.getWindow hwindow hmore
  have hpolicy := h.policy
  have htake (n : Nat) : d.requestQueue.take n ⊆ d.requestQueue := (List.take_sublist _ _).subset
  have hnotFifo : ∀ {p : Policy} {P : Prop}, d.policy = p → p ≠ .FIFO → c.policy = .FIFO → P :=
    fun hp hne hfifo => absurd (hp.symm.trans (hpolicy.trans hfifo)) hne
  unfold choose at hchoose
  split at hchoose
  · rename_i hfifo
    obtain ⟨⟨block, i⟩, hfirst, hchoose⟩ := bind_eq_ok.mp hchoose
    obtain ⟨_, hsatf, hchoose⟩ := bind_eq_ok.mp hchoose
    obtain ⟨rfl, rfl⟩ := Prod.mk.inj (Except.ok.inj hchoose)
    rw [index_some_eq_ok, h.count] at hfirst
    -- the slice is the first request that has not been served
    have hslice : (d.requestQueue.drop d.requestCount).take 1 = [(block, i)] := by
      rw [List.take_one, List.head?_drop, h.count, hfirst]
      rfl
    rw [hslice] at hsatf
    have hmem := List.mem_of_getElem? hfirst
    obtain ⟨e, he, _, hunserved, htrack⟩ :=
      h.doSATF_unserved (by simpa using hmem) d.currWindow hsatf
    obtain rfl := List.mem_singleton.mp he
    have hi : i = d.served.length := by
      obtain ⟨block', hentry⟩ := h.toQueued.entry hmore
      rw [hfirst] at hentry
      exact (Prod.mk.inj (Option.some.inj hentry)).2
    exact ⟨(block, i), hmem, d.currWindow, rfl, hunserved, htrack, fun _ => hi, rfl,
      h.window_of_ne (by rw [← hpolicy, hfifo]; decide)⟩
  · rename_i hsatf
    rw [hget] at hchoose
    obtain ⟨_, hdo, hchoose⟩ := bind_eq_ok.mp hchoose
    obtain ⟨rfl, rfl⟩ := Prod.mk.inj (Except.ok.inj hchoose)
    obtain ⟨e, he, hchosen, hunserved, htrack⟩ := h.doSATF_unserved (htake _) currWindow hdo
    exact ⟨e, htake _ he, currWindow, hchosen, hunserved, htrack, hnotFifo hsatf (by decide), rfl,
      hafter⟩
  · rename_i hbsatf
    rw [hget] at hchoose
    obtain ⟨_, hdo, hchoose⟩ := bind_eq_ok.mp hchoose
    obtain ⟨rfl, rfl⟩ := Prod.mk.inj (Except.ok.inj hchoose)
    obtain ⟨e, he, hchosen, hunserved, htrack⟩ := h.doSATF_unserved (htake _) currWindow hdo
    exact ⟨e, htake _ he, currWindow, hchosen, hunserved, htrack, hnotFifo hbsatf (by decide), rfl,
      hafter⟩
  · rename_i hsstf
    rw [hget] at hchoose
    obtain ⟨found, hfound, hchoose⟩ := bind_eq_ok.mp hchoose
    obtain ⟨_, hdo, hchoose⟩ := bind_eq_ok.mp hchoose
    obtain ⟨rfl, rfl⟩ := Prod.mk.inj (Except.ok.inj hchoose)
    unfold doSSTF at hfound
    obtain ⟨found', hloop, hfound⟩ := bind_eq_ok.mp hfound
    obtain ⟨_, _, hfound⟩ := bind_eq_ok.mp hfound
    obtain rfl := Except.ok.inj hfound
    -- what the nearest tracks have is in the window too
    have hsub : found' ⊆ d.requestQueue := by
      intro e he
      rcases sstfLoop_mem hloop e he with hnil | ⟨hin, _⟩
      · cases hnil
      · exact htake _ hin
    obtain ⟨e, he, hchosen, hunserved, htrack⟩ := h.doSATF_unserved hsub currWindow hdo
    exact ⟨e, hsub he, currWindow, hchosen, hunserved, htrack, hnotFifo hsstf (by decide), rfl,
      hafter⟩

/-- The requests in the queue are on tracks. -/
def AllOnTrack (d : Disk) : Prop := ∀ e ∈ d.requestQueue, OnTrack d.layout e.1

/-- With everything on a track, the loops look at nothing that would fail. -/
theorem Queued.readable (h : Queued c initial d) (htracks : d.AllOnTrack) :
    d.Readable d.requestQueue := by
  intro e he
  rw [h.states]
  exact ⟨(h.mem_iff he).1, htracks e he⟩

/-- A slice that is longer than the number of requests served holds one that has not been. -/
theorem Queued.exists_unserved (h : Queued c initial d) {k : Nat} (hwindow : d.served.length < k)
    (hmore : d.served.length < d.requestQueue.length) :
    ∃ e ∈ d.requestQueue.take k, d.Eligible e.2 := by
  refine exists_eligible h.states.symm ?_ (fun i hi => h.entry hi) hwindow hmore
  intro i hi
  rw [h.states] at hi
  rw [h.eligible i hi]
  exact (em (i ∈ d.served)).symm

/-- With something to serve and everything on a track, the choice succeeds. -/
theorem Ready.choose_total (h : Ready c initial d) (hwindow : c.window = -1 ∨ 1 ≤ c.window)
    (hmore : d.served.length < d.requestQueue.length) (htracks : d.AllOnTrack)
    (est : Block → Rat) : ∃ chosen, d.choose est = .ok chosen := by
  obtain ⟨endIndex, currWindow, hget, hend, hafter⟩ := h.getWindow hwindow hmore
  have hreadable := h.toQueued.readable htracks
  have htake : ∀ n, d.Readable (d.requestQueue.take n) :=
    fun n e he => hreadable e ((List.take_sublist _ _).subset he)
  have hsome : ∀ {k : Int}, (d.served.length : Int) < k →
      ∃ e ∈ d.requestQueue.take k.toNat, d.Eligible e.2 :=
    fun hk => h.toQueued.exists_unserved (by omega) hmore
  have hclamp : (d.served.length : Int) <
      if endIndex > d.requestQueue.length then (d.requestQueue.length : Int) else endIndex := by
    split <;> omega
  -- the window of `d` is the only field that `choose` has changed when it asks `DoSATF`
  have hsatf : ∀ rList, d.Readable rList → (∃ e ∈ rList, d.Eligible e.2) →
      ∃ chosen, Disk.doSATF { d with currWindow := currWindow } est rList = .ok chosen :=
    fun rList hread hex => doSATF_total (d := { d with currWindow := currWindow }) hread hex est
  unfold choose
  split
  · obtain ⟨block, hfirst⟩ := h.toQueued.entry hmore
    rw [← h.count] at hfirst
    have hslice : (d.requestQueue.drop d.requestCount).take 1 = [(block, d.requestCount)] := by
      rw [List.take_one, List.head?_drop, hfirst]
      rfl
    have hmem := List.mem_of_getElem? hfirst
    -- in order, the next request is unserved
    have heligible : d.Eligible d.requestCount := by
      rw [(h.toQueued.mem_iff hmem).2]
      intro hin
      have hlt := h.inOrder (by rw [← h.policy]; assumption) _ hin
      have hcount := h.count
      omega
    have hone : d.Readable [(block, d.requestCount)] :=
      fun e he => hreadable e (by rwa [List.mem_singleton.mp he])
    obtain ⟨chosen, hdo⟩ := doSATF_total hone ⟨_, List.mem_singleton_self _, heligible⟩ est
    rw [hslice, index_some_eq_ok.mpr hfirst]
    simp only [bind, Except.bind, hdo]
    exact ⟨_, rfl⟩
  · rw [hget]
    obtain ⟨chosen, hdo⟩ := hsatf _ (htake _) (hsome hclamp)
    simp only [bind, Except.bind, hdo]
    exact ⟨_, rfl⟩
  · rw [hget]
    obtain ⟨chosen, hdo⟩ := hsatf _ (htake _) (hsome hclamp)
    simp only [bind, Except.bind, hdo]
    exact ⟨_, rfl⟩
  · rw [hget]
    obtain ⟨found, hloop, hne⟩ : ∃ found,
        sstfLoop { d with currWindow := currWindow } (d.requestQueue.take endIndex.toNat) MAXTRACKS []
          = .ok found ∧ found ≠ [] :=
      @sstfLoop_total { d with currWindow := currWindow } _ [] (htake endIndex.toNat) h.armTrack
        MAXTRACKS (Or.inr ⟨rfl, hsome hend⟩)
    have hfound : Disk.doSSTF { d with currWindow := currWindow }
        (d.requestQueue.take endIndex.toNat) = .ok found := by
      unfold doSSTF
      simp [hloop, hne, bind, Except.bind, pure, Except.pure]
    have hmem : ∀ e ∈ found, e ∈ d.requestQueue.take endIndex.toNat ∧ d.Eligible e.2 := by
      intro e he
      rcases sstfLoop_mem hloop e he with hnil | hin
      · cases hnil
      · exact hin
    obtain ⟨e, he⟩ := List.exists_mem_of_ne_nil found hne
    obtain ⟨chosen, hdo⟩ := hsatf found (fun e he => htake _ e (hmem e he).1)
      ⟨e, he, (hmem e he).2⟩
    simp only [bind, Except.bind, hfound, hdo]
    exact ⟨_, rfl⟩

/-! ## The steps of a request -/

theorem eligible_set {state : State} {j : Nat} (hi : i < d.requestState.length) :
    Eligible { d with requestState := d.requestState.set i state } j ↔
      if i = j then state ≠ .done else d.Eligible j := by
  unfold Eligible
  simp only [List.getElem?_set, hi, if_true]
  split <;> simp

theorem switchState_ok (hindex : d.currentIndex = some i) (hi : i < d.requestState.length)
    (state : State) : d.switchState state = .ok { d with
      state := state, requestState := d.requestState.set i state } := by
  have hget : index d.requestState (some i) = .ok d.requestState[i] :=
    index_some_eq_ok.mpr (List.getElem?_eq_getElem hi)
  unfold switchState
  rw [hindex, hget]
  rfl

theorem Chosen.index_lt (h : Chosen c initial d i) : i < d.requestQueue.length :=
  (List.getElem?_eq_some_iff.mp h.block).1

/-- The request's own state changes, and no other; so what is eligible stays so. -/
theorem Chosen.switch (h : Chosen c initial d i) {state : State} (hstate : state ≠ .done) :
    d.switchState state = .ok { d with
        state := state, requestState := d.requestState.set i state } ∧
      Chosen c initial { d with
        state := state, requestState := d.requestState.set i state } i := by
  have hi : i < d.requestState.length := h.states ▸ h.index_lt
  refine ⟨switchState_ok h.index hi state, ⟨⟨h.policy, h.fairWindow, h.lateRequests, h.queue, ?_,
    h.count, h.nodup, h.tracks, ?_, h.inOrder, h.armTrack, h.armTarget, h.going⟩, h.window, h.index,
    h.block, h.unserved, h.first, h.onTrack⟩⟩
  · show (d.requestState.set i state).length = _
    rw [List.length_set, h.states]
  · intro j hj
    show Eligible { d with requestState := d.requestState.set i state } j ↔ j ∉ d.served
    rw [eligible_set hi]
    split
    · subst_vars
      exact ⟨fun _ => h.unserved, fun _ => hstate⟩
    · exact h.eligible j hj

/-- The plan of a seek, or of a wait, succeeds on one of the three tracks. -/
theorem Chosen.seek (h : Chosen c initial d i) (hlate : d.lateCount = min d.served.length
    d.lateRequests.length) {track : Nat} (htrack : track ≤ 2) :
    ∃ d', d.planSeek track = .ok d' ∧ Chosen c initial d' i ∧
      d'.lateCount = min d'.served.length d'.lateRequests.length ∧
      (d'.state = .seek ∨ d'.state = .rotate) ∧ d'.served = d.served ∧
      d'.currentBlock = d.currentBlock ∧ d'.layout = d.layout := by
  obtain ⟨hswitch, hchosen⟩ := h.switch (show State.seek ≠ .done by decide)
  unfold planSeek
  rw [hswitch]
  by_cases hthere : track = d.armTrack
  · obtain ⟨hrotate, hchosen'⟩ := hchosen.switch (show State.rotate ≠ .done by decide)
    refine ⟨_, (if_pos hthere).trans hrotate, hchosen', hlate, Or.inr rfl, rfl, rfl, rfl⟩
  · refine ⟨_, (if_neg hthere).trans rfl, ⟨⟨hchosen.policy, hchosen.fairWindow,
      hchosen.lateRequests, hchosen.queue, hchosen.states, hchosen.count, hchosen.nodup,
      hchosen.tracks, hchosen.eligible, hchosen.inOrder, hchosen.armTrack, htrack, hchosen.going⟩,
      hchosen.window, hchosen.index, hchosen.block, hchosen.unserved, hchosen.first,
      hchosen.onTrack⟩, hlate, Or.inl rfl, rfl, rfl, rfl⟩

/-- A late request comes in behind the others, and the request that has been chosen is in flight. -/
theorem Chosen.addLate (h : Chosen c initial d i)
    (hlate : d.lateCount = min d.served.length d.lateRequests.length)
    (hstate : d.state = .seek ∨ d.state = .rotate) :
    InFlight c initial d.addLate i ∧ d.addLate.served = d.served ∧
      d.addLate.currentBlock = d.currentBlock ∧ d.addLate.layout = d.layout := by
  have hstate' : d.state = .seek ∨ d.state = .rotate ∨ d.state = .xfer := by
    rcases hstate with hseek | hrotate
    · exact Or.inl hseek
    · exact Or.inr (Or.inl hrotate)
  unfold Disk.addLate
  split
  · rename_i block hblock
    obtain ⟨hlt, _⟩ := List.getElem?_eq_some_iff.mp hblock
    -- The numbers go on where the initial requests end.
    have hqueue : d.requestQueue ++ [(block, d.requestQueue.length)] =
        (initial.map Block.int ++ d.lateRequests.take (d.lateCount + 1)).zipIdx := by
      rw [List.take_add_one, hblock, Option.toList_some, ← List.append_assoc, List.zipIdx_append,
        ← h.queue, h.queue, List.length_zipIdx]
      simp
    -- An appended state leaves the older requests as eligible as they were.
    have hold : ∀ j < d.requestQueue.length,
        (Eligible { d with requestState := d.requestState ++ [State.null] } j ↔ d.Eligible j) := by
      intro j hj
      unfold Eligible
      rw [List.getElem?_append_left (by rw [h.states]; exact hj)]
    refine ⟨⟨⟨⟨h.policy, h.fairWindow, h.lateRequests, hqueue, ?_, h.count, h.nodup, ?_, ?_,
      h.inOrder, h.armTrack, h.armTarget, h.going⟩, h.window, h.index, ?_, h.unserved, h.first,
      h.onTrack⟩, ?_, hstate'⟩, rfl, rfl, rfl⟩
    · show (d.requestState ++ [State.null]).length = (d.requestQueue ++ [_]).length
      rw [List.length_append, List.length_append, h.states]
      rfl
    · intro j hj
      obtain ⟨block', hget, htrack⟩ := h.tracks j hj
      obtain ⟨hlt, _⟩ := List.getElem?_eq_some_iff.mp hget
      refine ⟨block', ?_, htrack⟩
      show (d.requestQueue ++ [_])[j]? = _
      rw [List.getElem?_append_left hlt, hget]
    · intro j hj
      show Eligible { d with requestState := d.requestState ++ [State.null] } j ↔ j ∉ d.served
      by_cases hjold : j < d.requestQueue.length
      · rw [hold j hjold]
        exact h.eligible j hjold
      · -- the new request
        have hj' : j < (d.requestQueue ++ [(block, d.requestQueue.length)]).length := hj
        rw [List.length_append, List.length_singleton] at hj'
        have hnew : (d.requestState ++ [State.null])[j]? = some .null := by
          rw [List.getElem?_append_right (by rw [h.states]; omega), h.states]
          have hzero : j - d.requestQueue.length = 0 := by omega
          rw [hzero]
          rfl
        exact ⟨fun _ hin => hjold (h.toQueued.lt j hin), fun _ => ⟨.null, hnew, by decide⟩⟩
    · show (d.requestQueue ++ [_])[i]? = _
      rw [List.getElem?_append_left h.index_lt]
      exact h.block
    · show d.lateCount + 1 = min (d.served.length + 1) d.lateRequests.length
      omega
  · rename_i hnone
    have hle := List.getElem?_eq_none_iff.mp hnone
    exact ⟨⟨h, by omega, hstate'⟩, rfl, rfl, rfl⟩

/-- What the choice leaves is a disk on which one request has been chosen that had not been
served. -/
theorem Ready.chosen (h : Ready c initial d) (hwindow : c.window = -1 ∨ 1 ≤ c.window)
    (hmore : d.served.length < d.requestQueue.length) {chosen : Block × Option Nat}
    (hchoose : d.choose est = .ok (chosen, d')) :
    ∃ i, Chosen c initial { d' with currentBlock := chosen.1, currentIndex := chosen.2 } i ∧
      d'.lateCount = min d'.served.length d'.lateRequests.length ∧ d'.served = d.served ∧
      d'.layout = d.layout := by
  obtain ⟨e, he, currWindow, rfl, hunserved, htrack, hfirst, rfl, hafter⟩ :=
    h.choose_cases hwindow hmore hchoose
  exact ⟨e.2, ⟨⟨h.policy, h.fairWindow, h.lateRequests, h.queue, h.states, h.count, h.nodup, h.tracks,
    h.eligible, h.inOrder, h.armTrack, h.armTarget, h.going⟩, hafter, rfl, h.entry_eq he, hunserved,
    hfirst, htrack⟩, h.lateCount, rfl, rfl⟩

/-- After a decision everything has been served, or a request is being served. -/
theorem Ready.getNextIo_cases (h : Ready c initial d) (hinitial : initial ≠ [])
    (hwindow : c.window = -1 ∨ 1 ≤ c.window) (hnext : d.getNextIo est = .ok d') :
    d'.served = d.served ∧ d'.layout = d.layout ∧
      ((Finished c initial d' ∧ d' = { d with isDone := true }) ∨ ∃ i, InFlight c initial d' i) := by
  unfold getNextIo at hnext
  split at hnext
  · rename_i hdone
    obtain rfl := Except.ok.inj hnext
    exact ⟨rfl, rfl, Or.inl ⟨h.finished hinitial hdone, rfl⟩⟩
  · rename_i hmore
    have hle := h.served_length_le
    rw [h.count] at hmore
    obtain ⟨⟨chosen, d₁⟩, hchoose, hnext⟩ := bind_eq_ok.mp hnext
    obtain ⟨i, hchosen, hlate, hserved, hlayout⟩ := h.chosen hwindow (by omega) hchoose
    obtain ⟨track, htrack, hnext⟩ := bind_eq_ok.mp hnext
    obtain ⟨track', htrackle, htrack'⟩ := onTrack_of_ok htrack
    obtain rfl : track' = track := Except.ok.inj (htrack'.symm.trans htrack)
    obtain ⟨d₂, hseek, hchosen₂, hlate₂, hstate, hserved₂, _, hlayout₂⟩ :=
      hchosen.seek hlate htrackle
    obtain ⟨d₃, hplan, hnext⟩ := bind_eq_ok.mp hnext
    obtain rfl : d₂ = d₃ := Except.ok.inj (hseek.symm.trans hplan)
    obtain rfl := Except.ok.inj hnext
    obtain ⟨hflight, hserved₃, _, hlayout₃⟩ := hchosen₂.addLate hlate₂ hstate
    exact ⟨hserved₃.trans (hserved₂.trans hserved), hlayout₃.trans (hlayout₂.trans hlayout),
      Or.inr ⟨i, hflight⟩⟩

/-- With everything on a track a decision succeeds. -/
theorem Ready.getNextIo_total (h : Ready c initial d) (hwindow : c.window = -1 ∨ 1 ≤ c.window)
    (htracks : d.AllOnTrack) (est : Block → Rat) : ∃ d', d.getNextIo est = .ok d' := by
  unfold getNextIo
  split
  · exact ⟨_, rfl⟩
  · rename_i hmore
    have hle := h.served_length_le
    rw [h.count] at hmore
    have hlt : d.served.length < d.requestQueue.length := by omega
    obtain ⟨⟨chosen, d₁⟩, hchoose⟩ := h.choose_total hwindow hlt htracks est
    obtain ⟨i, hchosen, hlate, _, _⟩ := h.chosen hwindow hlt hchoose
    obtain ⟨track, htrackle, htrack⟩ := hchosen.onTrack
    obtain ⟨d₂, hseek, _⟩ := hchosen.seek hlate htrackle
    rw [hchoose]
    show ∃ d', (d₁.layout.blockToTrackMap chosen.1 >>= _) = .ok d'
    have htrack' : d₁.layout.blockToTrackMap chosen.1 = .ok track := htrack
    rw [htrack']
    show ∃ d', (planSeek _ track >>= _) = .ok d'
    rw [hseek]
    exact ⟨_, rfl⟩

/-! ## A tick -/

/-- The disk when the transfer of `i` has ended, in front of the next decision. -/
def afterTransfer (d : Disk) (i : Nat) : Disk :=
  updateWindow { d with
    state := .done
    requestState := d.requestState.set i .done
    requestCount := d.requestCount + 1
    served := d.served ++ [i] }

theorem afterTransfer_served (d : Disk) (i : Nat) :
    (d.afterTransfer i).served = d.served ++ [i] := by
  unfold afterTransfer updateWindow
  split <;> rfl

theorem afterTransfer_length (d : Disk) (i : Nat) :
    (d.afterTransfer i).served.length = d.served.length + 1 := by
  rw [afterTransfer_served, List.length_append, List.length_singleton]

theorem updateWindow_eq (d : Disk) :
    ∃ currWindow, d.updateWindow = { d with currWindow := currWindow } := by
  unfold updateWindow
  split
  · exact ⟨_, rfl⟩
  · exact ⟨d.currWindow, rfl⟩

/-- Sliding, the window moves on by one as long as it is inside the queue; in batches it stays until
the next decision. -/
theorem InFlight.windowBefore (h : InFlight c initial d i) (hinitial : initial ≠ [])
    (hwindow : c.window = -1 ∨ 1 ≤ c.window) :
    WindowBefore c initial.length d.lateRequests.length (d.served.length + 1)
      (d.afterTransfer i).currWindow := by
  have hafter := h.window
  have hfair := h.fairWindow
  have hlength := h.toQueued.length
  rw [h.lateCount] at hlength
  have hsome := List.length_pos_iff.mpr hinitial
  unfold Window at hafter
  unfold WindowBefore afterTransfer updateWindow
  rcases hwindow with hfull | hpos
  · rw [if_pos hfull] at hafter ⊢
    rw [if_neg (fun hslides => by have := hslides.2.1; dsimp only at this; omega)]
    exact hafter
  have hne : c.window ≠ -1 := by omega
  rw [if_neg hne] at hafter ⊢
  by_cases hpolicy : c.policy = .BSATF
  · rw [if_pos hpolicy] at hafter ⊢
    rw [if_pos ⟨hpolicy, hne⟩] at hfair
    rw [if_neg (fun hslides => by have := hslides.1; dsimp only at this; omega)]
    exact hafter
  · rw [if_neg hpolicy] at hafter ⊢
    rw [if_neg (fun hboth => hpolicy hboth.1)] at hfair
    dsimp only
    split
    · dsimp only
      omega
    · dsimp only
      omega

/-- When the transfer has ended, the disk is ready for the next decision, with one more request
served. -/
theorem InFlight.serve (h : InFlight c initial d i) (hinitial : initial ≠ [])
    (hwindow : c.window = -1 ∨ 1 ≤ c.window) :
    Ready c initial (d.afterTransfer i) := by
  have hi : i < d.requestState.length := h.states ▸ h.index_lt
  have hbefore := h.windowBefore hinitial hwindow
  have hnodup : (d.served ++ [i]).Nodup :=
    List.nodup_append.mpr ⟨h.nodup, by simp, by
      intro a ha b hb hab
      rw [List.mem_singleton.mp hb] at hab
      exact h.unserved (hab ▸ ha)⟩
  have hlength : (d.served ++ [i]).length = d.served.length + 1 := by
    rw [List.length_append, List.length_singleton]
  -- The queue behind the transfer, before the window is moved.
  have hqueued : Queued c initial { d with
      state := .done
      requestState := d.requestState.set i .done
      requestCount := d.requestCount + 1
      served := d.served ++ [i] } := by
    refine ⟨h.policy, h.fairWindow, h.lateRequests, h.queue, ?_, ?_, hnodup, ?_, ?_, ?_, h.armTrack,
      h.armTarget, h.going⟩
    · show (d.requestState.set i .done).length = _
      rw [List.length_set, h.states]
    · show d.requestCount + 1 = (d.served ++ [i]).length
      rw [hlength, h.count]
    · intro j hj
      rcases List.mem_append.mp hj with hold | hnew
      · exact h.tracks j hold
      · obtain rfl := List.mem_singleton.mp hnew
        exact ⟨d.currentBlock, h.block, h.onTrack⟩
    · intro j hj
      show Eligible { d with requestState := d.requestState.set i .done } j ↔ j ∉ d.served ++ [i]
      rw [eligible_set hi, List.mem_append, List.mem_singleton]
      split
      · subst_vars
        simp
      · rename_i hne
        rw [h.eligible j hj]
        simp [Ne.symm hne]
    -- Under FIFO what has been served is a front of the queue, and `i` comes next.
    · intro hfifo j hj
      show j < (d.served ++ [i]).length
      rw [hlength]
      rcases List.mem_append.mp hj with hold | hnew
      · have hlt := h.inOrder hfifo j hold
        omega
      · rw [List.mem_singleton.mp hnew, h.first hfifo]
        exact Nat.lt_succ_self _
  -- `UpdateWindow` changes the window only, of which `hbefore` speaks.
  unfold afterTransfer at hbefore ⊢
  obtain ⟨currWindow, heq⟩ := updateWindow_eq { d with
    state := .done
    requestState := d.requestState.set i .done
    requestCount := d.requestCount + 1
    served := d.served ++ [i] }
  rw [heq] at hbefore ⊢
  refine ⟨⟨hqueued.policy, hqueued.fairWindow, hqueued.lateRequests, hqueued.queue, hqueued.states,
    hqueued.count, hqueued.nodup, hqueued.tracks, hqueued.eligible, hqueued.inOrder,
    hqueued.armTrack, hqueued.armTarget, hqueued.going⟩, ?_, ?_⟩
  · show d.lateCount = min (d.served ++ [i]).length d.lateRequests.length
    rw [hlength, h.lateCount]
  · show WindowBefore c initial.length d.lateRequests.length (d.served ++ [i]).length currWindow
    rw [hlength]
    exact hbefore

theorem switchState_frame {state : State} (h : d.switchState state = .ok d') :
    d' = { d with state := state, requestState := d'.requestState } := by
  unfold switchState at h
  obtain ⟨_, _, h⟩ := bind_eq_ok.mp h
  obtain rfl := Except.ok.inj h
  rfl

/-- The arm moves if the track is another one; otherwise the disk waits for the block at once. -/
theorem planSeek_cases {track : Nat} (h : d.planSeek track = .ok d') :
    (track = d.armTrack ∧ ∃ requestState,
      d' = { d with state := .rotate, requestState := requestState }) ∨
    (track ≠ d.armTrack ∧ ∃ requestState,
      d' = { d with state := .seek, requestState := requestState, armTarget := track }) := by
  unfold planSeek at h
  obtain ⟨d₁, hseek, h⟩ := bind_eq_ok.mp h
  have hframe := switchState_frame hseek
  split at h
  · rename_i hsame
    rw [hframe] at h hsame
    have hrotate := switchState_frame h
    exact Or.inl ⟨hsame, _, hrotate⟩
  · rename_i hother
    cases Except.ok.inj h
    rw [hframe] at hother ⊢
    exact Or.inr ⟨hother, _, rfl⟩

theorem getWindow_eq (d : Disk) :
    ∃ currWindow, d.getWindow.2 = { d with currWindow := currWindow } := by
  unfold getWindow
  split
  · exact ⟨d.currWindow, rfl⟩
  · split
    · dsimp only
      split
      · exact ⟨_, rfl⟩
      · exact ⟨d.currWindow, rfl⟩
    · exact ⟨d.currWindow, rfl⟩

theorem addLate_eq (d : Disk) : ∃ requestQueue requestState lateCount,
    d.addLate = { d with
      requestQueue := requestQueue
      requestState := requestState
      lateCount := lateCount } := by
  unfold addLate
  split
  · exact ⟨_, _, _, rfl⟩
  · exact ⟨_, _, _, rfl⟩

/-- The part of `transferred` in front of the decision. -/
def endTransfer (d : Disk) : Except Abort Disk := do
  let d ← d.switchState .done
  return updateWindow { d with
    requestCount := d.requestCount + 1
    served := d.served ++ d.currentIndex.toList }

theorem transferred_bind (d : Disk) (est : Block → Rat) :
    d.transferred est = (do
      let next ← d.endTransfer
      let next ← next.getNextIo est
      let stays ← next.follows d.currentBlock next.currentBlock
      if stays then next.switchState .xfer else return next) := by
  unfold transferred endTransfer
  cases hdone : d.switchState .done with
  | error e => rfl
  | ok d₁ =>
    have hblock : d₁.currentBlock = d.currentBlock := by rw [switchState_frame hdone]
    obtain ⟨currWindow, heq⟩ := updateWindow_eq { d₁ with
      requestCount := d₁.requestCount + 1
      served := d₁.served ++ d₁.currentIndex.toList }
    simp only [bind, Except.bind, pure, Except.pure]
    rw [heq, ← hblock]

/-- The part of `transferred` in front of the decision succeeds, and leaves `afterTransfer`. -/
theorem InFlight.endTransfer_eq (h : InFlight c initial d i) :
    d.endTransfer = .ok (d.afterTransfer i) := by
  have hi : i < d.requestState.length := h.states ▸ h.index_lt
  unfold endTransfer afterTransfer
  rw [switchState_ok h.index hi]
  show Except.ok (updateWindow { d with
    state := .done
    requestState := d.requestState.set i .done
    requestCount := d.requestCount + 1
    served := d.served ++ d.currentIndex.toList }) = _
  rw [h.index]
  rfl

/-- `transferred` from the decision on: the next request, and the test whether the transfer goes
on. -/
theorem InFlight.transferred_eq (h : InFlight c initial d i) (est : Block → Rat) :
    d.transferred est = (do
      let d₁ ← (d.afterTransfer i).getNextIo est
      let stays ← d₁.follows d.currentBlock d₁.currentBlock
      if stays then d₁.switchState .xfer else return d₁) := by
  rw [transferred_bind, h.endTransfer_eq]
  rfl

/-- Between ticks a request is being served or all have been. -/
def Going (c : Config) (initial : List Int) (d : Disk) : Prop :=
  Finished c initial d ∨ ∃ i, InFlight c initial d i

/-- Staying in transfer changes nothing but states. -/
theorem Going.stay (h : Going c initial d) (hstay : d.switchState .xfer = .ok d') :
    Going c initial d' := by
  rcases h with hfinished | ⟨i, hflight⟩
  · rw [switchState_frame hstay]
    exact Or.inl ⟨hfinished.done, hfinished.queue, hfinished.served, hfinished.tracks⟩
  · obtain ⟨hok, hchosen⟩ := hflight.toChosen.switch (show State.xfer ≠ .done by decide)
    rw [hok] at hstay
    obtain rfl := Except.ok.inj hstay
    exact Or.inr ⟨i, hchosen, hflight.lateCount, Or.inr (Or.inr rfl)⟩

/-- Behind the end of a transfer the simulation is going on, with the request entered as served. -/
theorem InFlight.transferred_cases (h : InFlight c initial d i) (hinitial : initial ≠ [])
    (hwindow : c.window = -1 ∨ 1 ≤ c.window) (htransferred : d.transferred est = .ok d') :
    Going c initial d' ∧ d'.layout = d.layout ∧ d'.served = d.served ++ [i] := by
  have hframe : (d.afterTransfer i).layout = d.layout := by
    unfold afterTransfer updateWindow
    split <;> rfl
  rw [h.transferred_eq est] at htransferred
  obtain ⟨d₁, hnext, htransferred⟩ := bind_eq_ok.mp htransferred
  obtain ⟨hserved, hlayout, hcases⟩ := (h.serve hinitial hwindow).getNextIo_cases hinitial hwindow hnext
  have hgoing : Going c initial d₁ := hcases.imp_left And.left
  obtain ⟨stays, _, htransferred⟩ := bind_eq_ok.mp htransferred
  split at htransferred
  · have hsame := switchState_frame htransferred
    refine ⟨hgoing.stay htransferred, ?_, ?_⟩
    · rw [hsame]
      exact hlayout.trans hframe
    · rw [hsame]
      exact hserved.trans (afterTransfer_served d i)
  · obtain rfl := Except.ok.inj htransferred
    exact ⟨hgoing, hlayout.trans hframe, hserved.trans (afterTransfer_served d i)⟩

theorem follows_total {a b : Block} (ha : OnTrack d.layout a) (hb : OnTrack d.layout b)
    (harm : d.armTrack ≤ 2) : ∃ stays, d.follows a b = .ok stays := by
  obtain ⟨track, _, htrack⟩ := ha
  obtain ⟨track', _, htrack'⟩ := hb
  unfold follows
  simp only [htrack, htrack', bind, Except.bind]
  split
  · obtain ⟨ends, hends⟩ : ∃ ends, d.layout.tracksBeginEnd d.armTrack = .ok ends := by
      match d.armTrack, harm with
      | 0, _ => exact ⟨_, rfl⟩
      | 1, _ => exact ⟨_, rfl⟩
      | 2, _ => exact ⟨_, rfl⟩
    rw [hends]
    cases a with
    | str s => cases htrack
    | int current =>
      cases b with
      | str s => cases htrack'
      | int next => exact ⟨_, rfl⟩
  · exact ⟨false, rfl⟩

/-- With everything on a track the end of a transfer succeeds. -/
theorem InFlight.transferred_total (h : InFlight c initial d i) (hinitial : initial ≠ [])
    (hwindow : c.window = -1 ∨ 1 ≤ c.window) (htracks : d.AllOnTrack) (est : Block → Rat) :
    ∃ d', d.transferred est = .ok d' := by
  have hready := h.serve hinitial hwindow
  have hframe : (d.afterTransfer i).requestQueue = d.requestQueue ∧
      (d.afterTransfer i).layout = d.layout ∧ (d.afterTransfer i).currentBlock = d.currentBlock ∧
      (d.afterTransfer i).currentIndex = d.currentIndex := by
    unfold afterTransfer updateWindow
    split <;> exact ⟨rfl, rfl, rfl, rfl⟩
  obtain ⟨hqueue, hlayout, hblock, hindex⟩ := hframe
  have htracks' : (d.afterTransfer i).AllOnTrack := by
    unfold AllOnTrack
    rw [hqueue, hlayout]
    exact htracks
  obtain ⟨d₁, hnext⟩ := hready.getNextIo_total hwindow htracks' est
  obtain ⟨_, hlayout₁, hcases⟩ := hready.getNextIo_cases hinitial hwindow hnext
  have honTrack : OnTrack d₁.layout d.currentBlock := by
    rw [hlayout₁, hlayout]
    exact h.onTrack
  -- the request that is current after the decision has a state that can change
  obtain ⟨j, hj, hjlt, honTrack₁, harm⟩ : ∃ j, d₁.currentIndex = some j ∧
      j < d₁.requestState.length ∧ OnTrack d₁.layout d₁.currentBlock ∧ d₁.armTrack ≤ 2 := by
    rcases hcases with ⟨_, rfl⟩ | ⟨j, hflight⟩
    · refine ⟨i, hindex.trans h.index, ?_, ?_, hready.armTrack⟩
      · show i < (d.afterTransfer i).requestState.length
        rw [hready.states, hqueue]
        exact h.index_lt
      · show OnTrack (d.afterTransfer i).layout (d.afterTransfer i).currentBlock
        rw [hlayout, hblock]
        exact h.onTrack
    · exact ⟨j, hflight.index, hflight.states ▸ hflight.index_lt, hflight.onTrack,
        hflight.armTrack⟩
  obtain ⟨stays, hstays⟩ := follows_total honTrack honTrack₁ harm
  rw [h.transferred_eq est]
  simp only [hnext, hstays, switchState_ok hj hjlt, bind, Except.bind]
  split
  · exact ⟨_, rfl⟩
  · exact ⟨_, rfl⟩

/-- The part of `Animate` for a seek that has ended. -/
def seekEnds (d : Disk) (tick : Tick) : Except Abort Disk :=
  if d.state = .seek ∧ tick.seekDone then
    Disk.switchState { d with armTrack := d.armTarget } .rotate
  else
    pure d

/-- The part of `Animate` for a rotation that has ended. -/
def rotationEnds (d : Disk) (tick : Tick) : Except Abort Disk :=
  if d.state = .rotate ∧ tick.rotationDone then d.switchState .xfer else pure d

/-- `Animate` up to its test for the end of a transfer. -/
def arrive (d : Disk) (tick : Tick) : Except Abort Disk := d.seekEnds tick >>= (·.rotationEnds tick)

theorem animate_bind (d : Disk) (tick : Tick) :
    d.animate tick = (d.arrive tick >>= fun d₁ =>
      if d₁.state = .xfer ∧ tick.transferDone then d₁.transferred tick.est else pure d₁) := by
  have hrotate : ∀ (f : Disk → Except Abort Disk) (d₁ : Disk),
      (if d₁.state = .rotate ∧ tick.rotationDone then d₁.switchState .xfer >>= f
        else pure d₁ >>= f) = d₁.rotationEnds tick >>= f := by
    intro f d₁
    unfold rotationEnds
    split <;> rfl
  unfold animate arrive seekEnds
  rw [bind_assoc]
  simp only [hrotate]
  split <;> rfl

/-- The first part of a tick leaves the request in flight, past its seek if the tick brings the end
of it. -/
theorem InFlight.seekEnds_eq (h : InFlight c initial d i) (tick : Tick) :
    ∃ d₁, d.seekEnds tick = .ok d₁ ∧ InFlight c initial d₁ i ∧ d₁.requestQueue = d.requestQueue ∧
      d₁.layout = d.layout ∧ d₁.served = d.served ∧
      (tick.seekDone = true → d₁.state ≠ .seek) := by
  unfold seekEnds
  split
  · have harrived : Chosen c initial { d with armTrack := d.armTarget } i :=
      ⟨⟨h.policy, h.fairWindow, h.lateRequests, h.queue, h.states, h.count, h.nodup, h.tracks,
        h.eligible, h.inOrder, h.armTarget, h.armTarget, h.going⟩, h.window, h.index, h.block,
        h.unserved, h.first, h.onTrack⟩
    obtain ⟨hok, hchosen⟩ := harrived.switch (show State.rotate ≠ .done by decide)
    exact ⟨_, hok, ⟨hchosen, h.lateCount, Or.inr (Or.inl rfl)⟩, rfl, rfl, rfl, fun _ => by simp⟩
  · rename_i hnot
    exact ⟨d, rfl, h, rfl, rfl, rfl, fun hdone hstate => hnot ⟨hstate, hdone⟩⟩

/-- The second part does the same for the wait, and begins the transfer. -/
theorem InFlight.rotationEnds_eq (h : InFlight c initial d i) (tick : Tick) :
    ∃ d₁, d.rotationEnds tick = .ok d₁ ∧ InFlight c initial d₁ i ∧
      d₁.requestQueue = d.requestQueue ∧ d₁.layout = d.layout ∧ d₁.served = d.served ∧
      (d.state ≠ .seek → tick.rotationDone = true → d₁.state = .xfer) := by
  unfold rotationEnds
  split
  · obtain ⟨hok, hchosen⟩ := h.toChosen.switch (show State.xfer ≠ .done by decide)
    exact ⟨_, hok, ⟨hchosen, h.lateCount, Or.inr (Or.inr rfl)⟩, rfl, rfl, rfl, fun _ _ => rfl⟩
  · rename_i hnot
    refine ⟨d, rfl, h, rfl, rfl, rfl, fun hsought hrotationDone => ?_⟩
    rcases h.state with hstate | hstate | hstate
    · exact absurd hstate hsought
    · exact absurd ⟨hstate, hrotationDone⟩ hnot
    · exact hstate

/-- The request goes on by what the tick brings, up to the end of its transfer. -/
theorem InFlight.arrive_eq (h : InFlight c initial d i) (tick : Tick) :
    ∃ d₁, d.arrive tick = .ok d₁ ∧ InFlight c initial d₁ i ∧ d₁.requestQueue = d.requestQueue ∧
      d₁.layout = d.layout ∧ d₁.served = d.served ∧
      (tick.seekDone = true → tick.rotationDone = true → d₁.state = .xfer) := by
  obtain ⟨d₁, hok₁, h₁, hqueue₁, hlayout₁, hserved₁, hstate₁⟩ := h.seekEnds_eq tick
  obtain ⟨d₂, hok₂, h₂, hqueue₂, hlayout₂, hserved₂, hstate₂⟩ := h₁.rotationEnds_eq tick
  refine ⟨d₂, ?_, h₂, hqueue₂.trans hqueue₁, hlayout₂.trans hlayout₁, hserved₂.trans hserved₁,
    fun hseek => hstate₂ (hstate₁ hseek)⟩
  unfold arrive
  rw [hok₁]
  exact hok₂

theorem InFlight.animate_eq (h : InFlight c initial d i) (tick : Tick) :
    ∃ d₁, InFlight c initial d₁ i ∧ d₁.requestQueue = d.requestQueue ∧ d₁.layout = d.layout ∧
      d₁.served = d.served ∧
      (tick.seekDone = true → tick.rotationDone = true → d₁.state = .xfer) ∧
      d.animate tick =
        if d₁.state = .xfer ∧ tick.transferDone then d₁.transferred tick.est else pure d₁ := by
  obtain ⟨d₁, hok, h₁, hqueue, hlayout, hserved, hstate⟩ := h.arrive_eq tick
  refine ⟨d₁, h₁, hqueue, hlayout, hserved, hstate, ?_⟩
  rw [animate_bind, hok]
  rfl

/-- A tick keeps the simulation going; one that brings the end of all three phases serves the
request. -/
theorem InFlight.animate_cases (h : InFlight c initial d i) (hinitial : initial ≠ [])
    (hwindow : c.window = -1 ∨ 1 ≤ c.window) {tick : Tick} (htick : d.animate tick = .ok d') :
    Going c initial d' ∧ d'.layout = d.layout ∧
      (tick.seekDone = true → tick.rotationDone = true → tick.transferDone = true →
        d'.served = d.served ++ [i]) := by
  obtain ⟨d₁, h₁, _, hlayout, hserved, hxfer, heq⟩ := h.animate_eq tick
  rw [heq] at htick
  split at htick
  · obtain ⟨hgoing, hlayout', hserved'⟩ := h₁.transferred_cases hinitial hwindow htick
    exact ⟨hgoing, hlayout'.trans hlayout, fun _ _ _ => by rw [hserved', hserved]⟩
  · rename_i hnot
    obtain rfl := Except.ok.inj htick
    exact ⟨Or.inr ⟨i, h₁⟩, hlayout, fun hseek hrotate htransfer =>
      absurd ⟨hxfer hseek hrotate, htransfer⟩ hnot⟩

/-- With everything on a track no tick aborts, whatever it brings. -/
theorem InFlight.animate_total (h : InFlight c initial d i) (hinitial : initial ≠ [])
    (hwindow : c.window = -1 ∨ 1 ≤ c.window) (htracks : d.AllOnTrack) (tick : Tick) :
    ∃ d', d.animate tick = .ok d' := by
  obtain ⟨d₁, h₁, hqueue, hlayout, _, _, heq⟩ := h.animate_eq tick
  have htracks₁ : d₁.AllOnTrack := by
    unfold AllOnTrack
    rw [hqueue, hlayout]
    exact htracks
  rw [heq]
  split
  · exact h₁.transferred_total hinitial hwindow htracks₁ tick.est
  · exact ⟨_, rfl⟩

end Decisions

end Disk

end OsLab.Disks
