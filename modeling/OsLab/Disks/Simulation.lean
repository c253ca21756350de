import OsLab.Disks.Serving

/-!
# Every request is served once

Whole simulations. With late requests that are numbers no tick aborts and all requests are served; a
late request that is a piece of text has no track.

* **`fresh`**, **`new_ok`**, **`start_eq`** -- the disk that `__init__` makes, and the first
  decision.
* **`ValidConfig`**, **`going_reachable`** -- options that are accepted, and the invariant of every
  run with them.
* **`ServesAll`** -- what a simulation is for: it starts, never aborts, chooses only what has not
  been served, and serves everything once.
* **`servesAll_of_tracks`**, **`Finished.generated`** -- the two directions of `servesAll_iff`.
-/

namespace OsLab.Disks

namespace Disk

variable {d d' : Disk} {i : Nat}

section Simulations

variable {c : Config} {initial : List Int} {l : Layout}

/-- The requests of the start are entered in order, each as the number that its text stands for. -/
theorem addInitial_ok {blocks : List Block} {ns : List Int}
    (h : blocks.mapM Block.toInt = .ok ns) (d : Disk) (index : Nat) :
    d.addInitial blocks index = .ok { d with
      requestQueue := d.requestQueue ++ (ns.map Block.int).zipIdx index
      requestState := d.requestState ++ List.replicate ns.length .null } := by
  induction blocks generalizing ns d index with
  | nil =>
    rw [List.mapM_nil] at h
    obtain rfl := Except.ok.inj h
    simp [addInitial]
  | cons block blocks ih =>
    rw [List.mapM_cons] at h
    obtain ⟨n, hn, h⟩ := bind_eq_ok.mp h
    obtain ⟨ns', hns', h⟩ := bind_eq_ok.mp h
    obtain rfl := Except.ok.inj h
    unfold addInitial
    rw [hn]
    show (d.addQueueEntry (.int n) index).addInitial blocks (index + 1) = _
    rw [ih hns']
    simp [addQueueEntry, List.replicate_succ]

/-- The disk after `__init__`. -/
def fresh (c : Config) (l : Layout) (initial : List Int) : Disk where
  layout := l
  policy := c.policy
  fairWindow := if c.policy = .BSATF ∧ c.window ≠ -1 then c.window else -1
  lateRequests := makeRequests c.lateAddr
  lateCount := 0
  requestCount := 0
  requestQueue := (initial.map Block.int).zipIdx
  requestState := List.replicate initial.length .null
  currWindow := c.window
  currentIndex := none
  currentBlock := .int (-1)
  state := .null
  armTrack := 0
  armTarget := 0
  isDone := false
  served := []

/-- `__init__` accepts requests that are numbers, and makes the fresh disk. -/
theorem new_ok (hlayout : initBlockLayout c.zoning = .ok l)
    (hinitial : (makeRequests c.addr).mapM Block.toInt = .ok initial) :
    new c = .ok (fresh c l initial) := by
  unfold new
  rw [hlayout]
  exact addInitial_ok hinitial _ 0

/-- The fresh disk is ready for its first decision. -/
theorem ready_fresh : Ready c initial (fresh c l initial) := by
  have hlength : (initial.map Block.int).zipIdx.length = initial.length := by
    rw [List.length_zipIdx, List.length_map]
  have hnone : ∀ {P : Nat → Prop}, ∀ i ∈ (fresh c l initial).served, P i := fun i hi => by cases hi
  refine ⟨⟨rfl, rfl, rfl, ?_, ?_, rfl, List.nodup_nil, hnone, ?_, fun _ => hnone, Nat.zero_le _,
    Nat.zero_le _, rfl⟩, ?_, ?_⟩
  · simp [fresh]
  · show (List.replicate initial.length State.null).length = _
    rw [List.length_replicate]
    exact hlength.symm
  · intro i hi
    have hi' : i < initial.length := hlength ▸ hi
    refine ⟨fun _ => List.not_mem_nil, fun _ => ⟨.null, ?_, by decide⟩⟩
    show (List.replicate initial.length State.null)[i]? = _
    rw [List.getElem?_replicate, if_pos hi']
  · exact (Nat.zero_min _).symm
  · unfold WindowBefore
    split
    · assumption
    · split
      · simp [fresh]
      · simp [fresh]

/-- What a simulation is started with. -/
structure ValidConfig (c : Config) (l : Layout) : Prop where
  layout : initBlockLayout c.zoning = .ok l
  window : c.window = -1 ∨ 1 ≤ c.window
  nonempty : makeRequests c.addr ≠ []
  initial : ∀ block ∈ makeRequests c.addr, ∃ n, block.toInt = .ok n ∧ OnTrack l (.int n)
  late : ∀ block ∈ makeRequests c.lateAddr, ∃ n, block.toInt = .ok n ∧ OnTrack l (.int n)

theorem exists_mapM {blocks : List Block}
    (h : ∀ block ∈ blocks, ∃ n, block.toInt = .ok n ∧ OnTrack l (.int n)) :
    ∃ ns, blocks.mapM Block.toInt = .ok ns ∧ ns.length = blocks.length ∧
      ∀ n ∈ ns, OnTrack l (.int n) := by
  induction blocks with
  | nil => exact ⟨[], rfl, rfl, fun n hn => by cases hn⟩
  | cons block blocks ih =>
    obtain ⟨⟨n, hn, htrack⟩, hrest⟩ := List.forall_mem_cons.mp h
    obtain ⟨ns, hns, hlength, htracks⟩ := ih hrest
    refine ⟨n :: ns, ?_, by rw [List.length_cons, List.length_cons, hlength],
      List.forall_mem_cons.mpr ⟨htrack, htracks⟩⟩
    rw [List.mapM_cons, hn, hns]
    rfl

/-- The requests of accepted options are numbers of blocks with tracks, and there is at least
one. -/
theorem ValidConfig.exists_initial (h : ValidConfig c l) : ∃ initial,
    (makeRequests c.addr).mapM Block.toInt = .ok initial ∧ initial ≠ [] ∧
      initial.length = (makeRequests c.addr).length ∧ ∀ n ∈ initial, OnTrack l (.int n) := by
  obtain ⟨initial, hinitial, hlength, htracks⟩ := exists_mapM h.initial
  refine ⟨initial, hinitial, fun hnil => ?_, hlength, htracks⟩
  rw [hnil] at hlength
  exact h.nonempty (List.length_eq_zero_iff.mp hlength.symm)

/-- `Go` up to its loop is the first decision of the fresh disk. -/
theorem start_eq (hwindow : c.window = -1 ∨ 1 ≤ c.window)
    (hnew : new c = .ok (fresh c l initial)) (est : Block → Rat) :
    start c est = (fresh c l initial).getNextIo est := by
  unfold start
  rw [if_neg (by omega), hnew]
  rfl

/-- In every run a request is being served, or all have been, and the layout is that of the
options. -/
theorem going_reachable (hvalid : ValidConfig c l)
    (hinitial : (makeRequests c.addr).mapM Block.toInt = .ok initial) (hne : initial ≠ [])
    (h : (simulation c).Reachable d) : d.layout = l ∧ Going c initial d := by
  refine h.invariant (I := fun d => d.layout = l ∧ Going c initial d) ?_ ?_
  · rintro d ⟨est, hstart⟩
    rw [start_eq hvalid.window (new_ok hvalid.layout hinitial)] at hstart
    obtain ⟨_, hlayout, hcases⟩ :=
      ready_fresh.getNextIo_cases hne hvalid.window hstart
    exact ⟨hlayout, hcases.imp_left And.left⟩
  · rintro d tick d' ⟨hlayout, hgoing⟩ ⟨hnotDone, htick⟩
    rcases hgoing with hfinished | ⟨i, hflight⟩
    · rw [hfinished.done] at hnotDone
      cases hnotDone
    · obtain ⟨hgoing', hlayout', _⟩ := hflight.animate_cases hne hvalid.window htick
      exact ⟨hlayout'.trans hlayout, hgoing'⟩

/-- The queue holds nothing but requests of the options, so everything in it is on a track if they
are. -/
theorem Queued.allOnTrack (h : Queued c initial d) (hinitial : ∀ n ∈ initial, OnTrack d.layout (.int n))
    (hlate : ∀ block ∈ makeRequests c.lateAddr, OnTrack d.layout block) : d.AllOnTrack := by
  intro e he
  rw [h.queue] at he
  have hmem := List.fst_mem_of_mem_zipIdx he
  rcases List.mem_append.mp hmem with hold | hnew
  · obtain ⟨n, hn, heq⟩ := List.mem_map.mp hold
    rw [← heq]
    exact hinitial n hn
  · rw [h.lateRequests] at hnew
    exact hlate _ ((List.take_sublist _ _).subset hnew)

/-- The simulation serves everything: it starts, no tick aborts, the request that has been chosen
is one of the queue that has not been served, and in the end each has been served once. -/
structure ServesAll (c : Config) : Prop where
  starts : ∀ est, ∃ d, start c est = .ok d
  chosen : ∀ d, (simulation c).Reachable d → d.isDone = false →
    ∃ i, d.currentIndex = some i ∧ d.requestQueue[i]? = some (d.currentBlock, i) ∧ i ∉ d.served
  goes : ∀ d, (simulation c).Reachable d → d.isDone = false →
    ∀ tick, ∃ d', d.animate tick = .ok d'
  served : ∀ d, (simulation c).Reachable d → d.isDone = true → ∀ initial : List Int,
    (makeRequests c.addr).mapM Block.toInt = .ok initial →
      d.requestQueue = (initial.map Block.int ++ makeRequests c.lateAddr).zipIdx ∧
        d.served.Perm (List.range (initial.length + (makeRequests c.lateAddr).length))

/-- At the end the order of service is a permutation of all the requests. -/
theorem Finished.served_perm (h : Finished c initial d) :
    d.served.Perm (List.range (initial.length + (makeRequests c.lateAddr).length)) := by
  have hperm := h.served
  rw [h.queue, List.length_zipIdx, List.length_append, List.length_map] at hperm
  exact hperm

/-- If the late requests are on tracks, no look-up ever fails, and everything is served. -/
theorem servesAll_of_tracks (hvalid : ValidConfig c l)
    (hlate : ∀ block ∈ makeRequests c.lateAddr, OnTrack l block) : ServesAll c := by
  obtain ⟨initial, hinitial, hne, hlength, htracks⟩ := hvalid.exists_initial
  have hgoing := fun {d} => going_reachable (d := d) hvalid hinitial hne
  have hflight : ∀ d, (simulation c).Reachable d → d.isDone = false →
      d.layout = l ∧ ∃ i, InFlight c initial d i := by
    intro d hd hnotDone
    obtain ⟨hlayout, hfinished | hflight⟩ := hgoing hd
    · rw [hfinished.done] at hnotDone
      cases hnotDone
    · exact ⟨hlayout, hflight⟩
  constructor
  · intro est
    have hready : Ready c initial (fresh c l initial) := ready_fresh
    obtain ⟨d, hd⟩ := hready.getNextIo_total hvalid.window
      (hready.toQueued.allOnTrack htracks hlate) est
    exact ⟨d, (start_eq hvalid.window (new_ok hvalid.layout hinitial) est).trans hd⟩
  · intro d hd hnotDone
    obtain ⟨_, i, hi⟩ := hflight d hd hnotDone
    exact ⟨i, hi.index, hi.block, hi.unserved⟩
  · intro d hd hnotDone tick
    obtain ⟨rfl, i, hi⟩ := hflight d hd hnotDone
    exact hi.animate_total hne hvalid.window (hi.toQueued.allOnTrack htracks hlate) tick
  · intro d hd hdone initial' hinitial'
    obtain rfl : initial = initial' := Except.ok.inj (hinitial.symm.trans hinitial')
    obtain ⟨_, hfinished | ⟨i, hi⟩⟩ := hgoing hd
    · exact ⟨hfinished.queue, hfinished.served_perm⟩
    · rw [hi.going] at hdone
      cases hdone

/-- Late requests that the program draws are numbers, and those drawn are on tracks. -/
theorem servesAll_of_generated (hvalid : ValidConfig c l) {blocks : List Int}
    (hblocks : c.lateAddr = .generated blocks) : ServesAll c := by
  refine servesAll_of_tracks hvalid fun block hblock => ?_
  obtain ⟨n, hn, htrack⟩ := hvalid.late block hblock
  rw [hblocks] at hblock
  obtain ⟨m, _, rfl⟩ := List.mem_map.mp hblock
  obtain rfl : m = n := Except.ok.inj hn
  exact htrack

/-- When nothing aborts, enough ticks serve everything: ticks in which each phase ends serve one
request each. -/
theorem ServesAll.exists_finished (h : ServesAll c) (hvalid : ValidConfig c l)
    (hinitial : (makeRequests c.addr).mapM Block.toInt = .ok initial) (hne : initial ≠ []) :
    ∃ d, (simulation c).Reachable d ∧ Finished c initial d := by
  have hserves : ∀ n, ∃ d, (simulation c).Reachable d ∧
      (Finished c initial d ∨ ∃ i, InFlight c initial d i ∧ n ≤ d.served.length) := by
    intro n
    induction n with
    | zero =>
      obtain ⟨d, hd⟩ := h.starts fun _ => 0
      have hreach : (simulation c).Reachable d := Lts.Reachable.of_init ⟨_, hd⟩
      obtain ⟨_, hgoing⟩ := going_reachable hvalid hinitial hne hreach
      exact ⟨d, hreach, hgoing.imp_right fun ⟨i, hi⟩ => ⟨i, hi, Nat.zero_le _⟩⟩
    | succ n ih =>
      obtain ⟨d, hreach, hfinished | ⟨i, hi, hn⟩⟩ := ih
      · exact ⟨d, hreach, Or.inl hfinished⟩
      · -- a tick that brings everything ends the transfer
        obtain ⟨d', htick⟩ := h.goes d hreach hi.going ⟨true, true, true, fun _ => 0⟩
        obtain ⟨hgoing, _, hserved⟩ := hi.animate_cases hne hvalid.window htick
        refine ⟨d', hreach.step ⟨hi.going, htick⟩, hgoing.imp_right fun ⟨j, hj⟩ => ⟨j, hj, ?_⟩⟩
        rw [hserved rfl rfl rfl, List.length_append, List.length_singleton]
        omega
  obtain ⟨d, hreach, hfinished | ⟨i, hi, hn⟩⟩ :=
    hserves (initial.length + (makeRequests c.lateAddr).length + 1)
  · exact ⟨d, hreach, hfinished⟩
  · have hle := hi.toQueued.served_length_le
    have hlength := hi.toQueued.length
    rw [hi.lateRequests] at hlength
    omega

/-- When everything has been served, the late requests were not listed with `-l`: a late request
from a list stays a piece of text, and no block has it as its number. -/
theorem Finished.generated (h : Finished c initial d) :
    ∃ blocks, c.lateAddr = .generated blocks := by
  cases hlate : c.lateAddr with
  | generated blocks => exact ⟨blocks, rfl⟩
  | listed addr =>
    -- the first late request has been served, so it is on a track
    have hqueue := h.queue
    rw [hlate] at hqueue
    obtain ⟨s, rest, hsplit⟩ := List.exists_cons_of_ne_nil
      (show split addr ',' ≠ [] from List.splitOn_ne_nil ',' addr)
    have hget : d.requestQueue[initial.length]? = some (.str s, initial.length) := by
      rw [hqueue, makeRequests, hsplit, List.getElem?_zipIdx,
        List.getElem?_append_right (by rw [List.length_map]), List.length_map, Nat.sub_self]
      simp
    have hserved : initial.length ∈ d.served := by
      rw [h.served.mem_iff, List.mem_range]
      exact (List.getElem?_eq_some_iff.mp hget).1
    obtain ⟨block, hblock, htrack⟩ := h.tracks _ hserved
    rw [hget] at hblock
    obtain ⟨rfl, _⟩ := Prod.mk.inj (Option.some.inj hblock)
    exact absurd rfl (htrack.ne_str s)

/-- Everything is served exactly if the late requests are not listed with `-l`. -/
theorem servesAll_iff (hvalid : ValidConfig c l) :
    ServesAll c ↔ ∃ blocks, c.lateAddr = .generated blocks := by
  constructor
  · intro h
    obtain ⟨initial, hinitial, hne, _⟩ := hvalid.exists_initial
    obtain ⟨d, _, hfinished⟩ := h.exists_finished hvalid hinitial hne
    exact hfinished.generated
  · rintro ⟨blocks, hblocks⟩
    exact servesAll_of_generated hvalid hblocks

/-- `block` is a number of a block, or the text of one. -/
def isNumber (l : Layout) (block : Block) : Bool :=
  match block.toInt with
  | .ok n => (l.blockToTrackMap (.int n)).isOk
  | .error _ => false

theorem exists_of_isNumber {block : Block} (h : isNumber l block = true) :
    ∃ n, block.toInt = .ok n ∧ OnTrack l (.int n) := by
  unfold isNumber at h
  split at h
  · rename_i n hn
    cases htrack : l.blockToTrackMap (.int n) with
    | ok track => exact ⟨n, hn, onTrack_of_ok htrack⟩
    | error e =>
      rw [htrack] at h
      cases h
  · cases h

theorem servesAll_iff_batches :
    ServesAll ⟨(30, 30, 30), .BSATF, 2, .listed ['7', ',', '3'], .generated [1]⟩ ↔
      ∃ blocks, Addr.generated [1] = .generated blocks := by
  refine servesAll_iff (l := ⟨12, 12, 12⟩) ⟨rfl, Or.inr (by decide), by decide, ?_, ?_⟩
  · have hnumbers : ∀ block ∈ makeRequests (.listed ['7', ',', '3']),
        isNumber ⟨12, 12, 12⟩ block = true := by decide +kernel
    exact fun block hblock => exists_of_isNumber (hnumbers block hblock)
  · have hnumbers : ∀ block ∈ makeRequests (.generated [1]),
        isNumber ⟨12, 12, 12⟩ block = true := by decide +kernel
    exact fun block hblock => exists_of_isNumber (hnumbers block hblock)

/-- Block 0, then block 1 from the list of late requests. -/
def lateListed : Config := ⟨(30, 30, 30), .FIFO, -1, .listed ['0'], .listed ['1']⟩

theorem lateListed_valid : ValidConfig lateListed ⟨12, 12, 12⟩ := by
  refine ⟨rfl, Or.inl rfl, by decide, ?_, ?_⟩
  · have hnumbers : ∀ block ∈ makeRequests lateListed.addr,
        isNumber ⟨12, 12, 12⟩ block = true := by decide +kernel
    exact fun block hblock => exists_of_isNumber (hnumbers block hblock)
  · have hnumbers : ∀ block ∈ makeRequests lateListed.lateAddr,
        isNumber ⟨12, 12, 12⟩ block = true := by decide +kernel
    exact fun block hblock => exists_of_isNumber (hnumbers block hblock)

theorem lateListed_aborts :
    ValidConfig lateListed ⟨12, 12, 12⟩ ∧
      ∃ d, (simulation lateListed).Reachable d ∧ d.isDone = false ∧
        ∃ tick, d.animate tick = .error .keyError := by
  constructor
  · exact lateListed_valid
  · have haborts : (match start lateListed fun _ => 0 with
        | .ok d => decide (d.isDone = false) && (match d.animate ⟨true, true, true, fun _ => 0⟩ with
          | .ok _ => false
          | .error e => decide (e = .keyError))
        | .error _ => false) = true := by decide +kernel
    split at haborts
    · rename_i d hstart
      rw [Bool.and_eq_true, decide_eq_true_eq] at haborts
      obtain ⟨hnotDone, haborts⟩ := haborts
      split at haborts
      · cases haborts
      · rename_i e htick
        obtain rfl := of_decide_eq_true haborts
        exact ⟨d, Lts.Reachable.of_init ⟨_, hstart⟩, hnotDone, _, htick⟩
    · cases haborts

end Simulations

end Disk

end OsLab.Disks
