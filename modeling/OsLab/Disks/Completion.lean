import OsLab.Disks.Accounting
import OsLab.Disks.Refinement
import OsLab.Disks.Simulation

/-!
# Every request ends

The platter passes each mark in every revolution, so a phase that waits for a mark is over within
one. All requests together are therefore served by a time that is known in advance, if the disk
without its mechanics does not abort.

* **`exists_passes`** -- from any tick on, each mark is passed within a revolution.
* **`Row.Course.length_le`**, **`longest`** -- the bound for one request: the way of the arm over
  two tracks, and two revolutions.
* **`OnCourse.seekBegin_le`** -- the bound for all the requests so far, added up over the rows.
* **`animate_total`**, **`start_total`** -- the machine aborts only where the disk without mechanics
  does.
* **`completes_iff`** -- at any speeds every run completes exactly if the late requests are not
  listed.
-/

namespace OsLab.Disks

open Revolution (First NotYet)

/-! ## Waiting for a mark -/

/-- The ticks of a revolution. -/
def Drive.revolution (v : Drive) : Nat := ⌈360 / v.rotateSpeed⌉₊

/-- Within the ticks of a revolution, from any tick on, the platter comes as near to a mark as the
tests want it. -/
theorem exists_passes {v : Drive} (hrotate : 0 < v.rotateSpeed) (p : Place) (side : Int) (a : Nat) :
    ∃ k < v.revolution, Passes v (p.mark side) (a + k) := by
  have hnonneg : (0 : Rat) ≤ (p.mark side : Int) :=
    Int.cast_nonneg (Int.emod_nonneg _ (by decide))
  have hlt : ((p.mark side : Int) : Rat) < 360 := by
    exact_mod_cast Int.emod_lt_of_pos (p.angle + side * p.offset) (show (0 : Int) < 360 by decide)
  exact Revolution.exists_near hrotate (by norm_num) hnonneg hlt a

variable {S : Setup} {n origin : Nat} {prev : Option Row} {p : Place} {row : Row}

/-- The wait for a block is looked at from the tick in which it begins, or from the one behind. -/
theorem lookFrom_le (p : Place) (origin rotBegin : Nat) :
    lookFrom p origin rotBegin ≤ rotBegin + 1 := by
  unfold lookFrom
  split
  · exact le_refl _
  · exact Nat.le_succ _

/-- The wait for a block is over within a revolution. -/
theorem Row.Waited.xferBegin_le (h : row.Waited S n prev p origin)
    (hrotate : 0 < S.drive.rotateSpeed) : row.xferBegin ≤ row.rotBegin + S.drive.revolution := by
  have hlt := h.xferBegin.lt_of_recurring (exists_passes hrotate p (-1) _)
  have hle := lookFrom_le p origin row.rotBegin
  omega

/-- The arm needs its way: `n` ticks for each track between the one it has left and the one of the
block. -/
theorem Row.Course.rotBegin_eq (h : row.Course S n prev p origin) :
    row.rotBegin = row.seekBegin + n * p.dist origin := by
  rcases h.came with ⟨hwaited, _⟩ | ⟨hwent, _⟩
  · exact hwaited.rotBegin
  · rw [Place.dist_self hwent.track, Nat.mul_zero, hwent.rotBegin, Nat.add_zero]

/-- Behind the seek a request takes at most two revolutions, one for the wait and one for the
transfer. -/
theorem Row.Course.timer_le (h : row.Course S n prev p origin) (hrotate : 0 < S.drive.rotateSpeed) :
    row.timer ≤ row.rotBegin + 2 * S.drive.revolution := by
  rcases h.came with ⟨hwaited, htimer⟩ | ⟨hwent, htimer⟩
  · have hxfer := hwaited.xferBegin_le hrotate
    have hlt := htimer.lt_of_recurring (exists_passes hrotate p 1 _)
    omega
  · have hrot := hwent.rotBegin
    have hxfer := hwent.xferBegin
    have hlt := htimer.lt_of_recurring (exists_passes hrotate p 1 _)
    omega

/-- No track is farther away than two tracks. -/
theorem Place.dist_le (p : Place) (hp : p.track ≤ 2) (horigin : origin ≤ 2) :
    p.dist origin ≤ 2 := by
  unfold dist
  omega

theorem track_le_two {l : Layout} {block : Block} {track : Nat}
    (h : l.blockToTrackMap block = .ok track) : track ≤ 2 := by
  obtain ⟨track', hle, h'⟩ := Disk.onTrack_of_ok h
  rw [Except.ok.inj (h.symm.trans h')]
  exact hle

theorem Origin.le_two (h : Origin S prev origin) : origin ≤ 2 := by
  cases prev with
  | none =>
    rw [show origin = 0 from h]
    decide
  | some row => exact track_le_two h

/-- What a request takes at most, wherever the arm is. -/
def longest (v : Drive) (n : Nat) : Nat := n * 2 + 2 * v.revolution

/-- What a request takes from its beginning to its end is at most `longest`, wherever the arm has
been. -/
theorem Row.Course.length_le (h : row.Course S n prev p origin)
    (hrotate : 0 < S.drive.rotateSpeed) : row.timer ≤ row.seekBegin + longest S.drive n := by
  have hrot := h.rotBegin_eq
  have htimer := h.timer_le hrotate
  have hdist := Nat.mul_le_mul_left n
    (p.dist_le (track_le_two h.lies.track) h.arm.le_two)
  unfold longest
  omega

namespace Machine

variable {m m' : Machine}

/-- A request in flight has not taken longer than `longest` either: each phase would have been over
by then. -/
theorem Flies.timer_lt (h : m.Flies S n) (hrotate : 0 < S.drive.rotateSpeed) :
    m.timer < m.seekBegin + longest S.drive n := by
  obtain ⟨p, origin, hd, hphase⟩ := h
  have hdist := Nat.mul_le_mul_left n
    (p.dist_le (track_le_two hd.lies.track) hd.arm.le_two)
  obtain ⟨_, hpos, _⟩ := exists_passes hrotate p 1 0
  have hrevolution : 0 < S.drive.revolution := by omega
  unfold longest
  -- each phase has begun in time, and has not lasted its own bound
  rcases hphase with hphase | hphase | hphase
  · obtain ⟨k, hk, htimer, _⟩ := hphase.moving
    omega
  · have hlt := hphase.notYet.lt_of_recurring (exists_passes hrotate p (-1) _)
    have hle := lookFrom_le p origin m.rotBegin
    have hrot := hphase.rotBegin
    omega
  · rcases hphase.came with ⟨hwaited, hnotYet⟩ | ⟨hwent, hnotYet⟩
    · have hlt := hnotYet.lt_of_recurring (exists_passes hrotate p 1 _)
      have hxfer : m.xferBegin ≤ m.rotBegin + _ := hwaited.xferBegin_le hrotate
      have hrot : m.rotBegin = m.seekBegin + _ := hwaited.rotBegin
      omega
    · have hlt := hnotYet.lt_of_recurring (exists_passes hrotate p 1 _)
      have hxfer : m.xferBegin = m.seekBegin := hwent.xferBegin
      omega

/-- The rows meet without a gap, so the time now is at most `longest` for each of the requests so
far. -/
theorem OnCourse.seekBegin_le (h : m.OnCourse S n) (hrotate : 0 < S.drive.rotateSpeed) {now : Nat}
    (hbooked : m.clocked.Booked now) : now ≤ m.rows.length * longest S.drive n := by
  have hlengths := hbooked.linked.sum_lengths Row.seekBegin Row.timer fun _ _ hrow => hrow.begins
  rw [hbooked.now, show m.clocked.rows = m.rows from rfl] at hlengths
  have hle : ∀ x ∈ m.rows.map fun row => (row.timer : Int) - row.seekBegin,
      x ≤ (longest S.drive n : Int) := by
    intro x hx
    obtain ⟨row, hrow, rfl⟩ := List.mem_map.mp hx
    obtain ⟨prev, p, origin, hcourse⟩ := h.course_of_mem hrow
    have htimer := hcourse.length_le hrotate
    omega
  -- the rows follow each other without a gap, so their lengths add up to the time
  have hsum := List.sum_le_card_nsmul _ _ hle
  rw [hlengths, List.length_map, nsmul_eq_mul] at hsum
  have hsum' : (now : Int) ≤ ((m.rows.length * longest S.drive n : Nat) : Int) := by
    push_cast
    simpa using hsum
  exact_mod_cast hsum'

/-! ## Running to the end -/

theorem getNextIo_timer (h : m.getNextIo = .ok m') : m'.timer = m.timer := by
  rcases getNextIo_cases h with ⟨-, rfl⟩ | ⟨d, e, track, -, -, -, ⟨-, -, rfl⟩ | ⟨-, -, -, rfl⟩⟩
  · rfl
  · rfl
  · rfl

/-- A tick moves the timer by one, whatever else happens in it. -/
theorem animate_timer (h : m.animate = .ok m') : m'.timer = m.timer + 1 := by
  obtain ⟨m₁, m₂, hseeking, hrotating, htransferring⟩ := animate_parts h
  have htimer : m₂.timer = m.timer + 1 :=
    (rotating_underway hrotating).timer.trans (seeking_underway hseeking).timer
  rcases transferring_cases htransferring with ⟨-, rfl⟩ | ⟨-, _, -, ⟨-, rfl⟩ | ⟨-, htransferred⟩⟩
  · exact htimer
  · exact htimer
  · obtain ⟨d, m₃, stays, -, -, -, -, -, hnext, -, hgoes⟩ := transferred_cases htransferred
    have hsame : m₃.timer = m.timer + 1 := (getNextIo_timer hnext).trans htimer
    rcases hgoes with ⟨-, rfl⟩ | ⟨-, requestState, rfl⟩
    · exact hsame
    · exact hsame

/-- If every machine that is not done has a tick, the loop of `Go` runs for as long as it is let, or
has finished before. -/
theorem loop_total {c : Config} {v : Drive}
    (hgoes : ∀ m, (program c v).Reachable m → m.disk.isDone = false → ∃ m', m.animate = .ok m')
    (k : Nat) (hreach : (program c v).Reachable m) :
    ∃ m', loop k m = .ok m' ∧ (m'.disk.isDone = true ∨ m'.timer = m.timer + k) := by
  induction k generalizing m with
  | zero => exact ⟨m, rfl, Or.inr rfl⟩
  | succ k ih =>
    cases hdone : m.disk.isDone with
    | true =>
      refine ⟨m, ?_, Or.inl hdone⟩
      unfold loop
      rw [if_pos hdone]
    | false =>
      obtain ⟨m₁, hanimate⟩ := hgoes m hreach hdone
      have hreach₁ := hreach.step (a := ()) ⟨hdone, hanimate⟩
      obtain ⟨m', hloop, hend⟩ := ih hreach₁
      refine ⟨m', ?_, hend.imp_right fun htimer => ?_⟩
      · unfold loop
        rw [if_neg (by rw [hdone]; decide), hanimate]
        exact hloop
      · have htick := animate_timer hanimate
        omega

section Ends

variable {c : Config} {v : Drive} {t : Tables} {l : Layout} {initial : List Int}

/-- The machine goes on where the disk does: what is left of it has a tick, and the numbers that the
tests of the mechanics need are there. -/
theorem animate_total (hwindow : c.window ≠ 0) (hpaced : Paced v n) (hserves : Disk.ServesAll c)
    (h : (program c v).Reachable m) (hgoing : m.disk.isDone = false) :
    ∃ m', m.animate = .ok m' := by
  obtain ⟨t, l, ht, hl, hcourse⟩ := exists_onCourse hpaced h
  -- what the tick comes to on the disk is one of the ticks that the disk can make
  obtain ⟨tick, htick⟩ :=
    (hcourse.inFlight hgoing).animate_map hpaced (fits ht hl hpaced.rotate.ne')
  obtain ⟨d, hd⟩ := hserves.goes m.disk (refines hwindow hpaced h) hgoing tick
  obtain ⟨m', hanimate, -⟩ := map_eq_ok.mp (htick.trans hd)
  exact ⟨m', hanimate⟩

theorem window_ne_zero (hvalid : Disk.ValidConfig c l) : c.window ≠ 0 := by
  have hwindow := hvalid.window
  omega

/-- A machine that is accepted starts if the disk of its options does not abort. -/
theorem start_total (hvalid : Disk.ValidConfig c l) (hrotate : v.rotateSpeed ≠ 0)
    (haccepted : checkSeekSpeed v.seekSpeed = .ok ()) (hserves : Disk.ServesAll c) :
    ∃ m, start c v = .ok m := by
  obtain ⟨initial, hinitial, -⟩ := hvalid.exists_initial
  obtain ⟨t, ht⟩ := Tables.initBlockLayout_total hvalid.layout v.skew
  have hnew := Disk.new_ok hvalid.layout hinitial
  obtain ⟨est, hest⟩ :=
    initial_estimates (d := Disk.fresh c l initial) (fits ht hvalid.layout hrotate)
  obtain ⟨d, hd⟩ := hserves.starts est
  rw [Disk.start_eq hvalid.window hnew] at hd
  obtain ⟨m, hnext, -⟩ := map_eq_ok.mp (hest.trans hd)
  refine ⟨m, ?_⟩
  unfold start new
  rw [if_neg (window_ne_zero hvalid), ht, haccepted, hnew]
  exact hnext

/-- By then all requests have been served. -/
theorem timer_lt_of_going (hvalid : Disk.ValidConfig c l) (hpaced : Paced v n)
    (h : (program c v).Reachable m) (hgoing : m.disk.isDone = false) :
    m.timer < ((makeRequests c.addr).length + (makeRequests c.lateAddr).length + 1) *
      longest v n := by
  obtain ⟨initial, hinitial, hne, hlength, -⟩ := hvalid.exists_initial
  obtain ⟨t, l', -, -, hcourse⟩ := exists_onCourse hpaced h
  obtain ⟨hbooked, -⟩ := (Clocked.accounts (reachable_clocked h)).going hgoing
  have hbegin := hcourse.seekBegin_le hpaced.rotate hbooked
  have hflight := (hcourse.inFlight hgoing).timer_lt hpaced.rotate
  -- at most all requests have been served
  have hrows : m.rows.length ≤ (makeRequests c.addr).length + (makeRequests c.lateAddr).length := by
    have hreach := refines (window_ne_zero hvalid) hpaced h
    obtain ⟨-, hfinished | ⟨i, hi⟩⟩ := Disk.going_reachable hvalid hinitial hne hreach
    · rw [hfinished.done] at hgoing
      cases hgoing
    · have hserved := hi.toQueued.served_length_le
      have hqueue := hi.toQueued.length
      rw [hi.lateRequests] at hqueue
      rw [show m.rows.length = m.disk.requestCount from hbooked.count, hi.count]
      omega
  have hall := Nat.mul_le_mul_right (longest v n) hrows
  rw [Nat.succ_mul]
  show m.timer < _
  have hbegin' : m.seekBegin ≤ m.rows.length * longest v n := hbegin
  have hflight' : m.timer < m.seekBegin + longest v n := hflight
  omega

/-- The row of a request that has taken as long as the arm needs and at most two revolutions. -/
def InTime (m : Machine) (prev : Option Row) (row : Row) : Prop :=
  ∃ p origin, Lies m.setup row.block p ∧ Origin m.setup prev origin ∧
    (row.seekTime : Rat) = trackWidth / m.drive.seekSpeed * p.dist origin ∧
    row.totalTime ≤ row.seekTime + 2 * ⌈360 / m.drive.rotateSpeed⌉₊

theorem inTime (hpaced : Paced v n) (h : (program c v).Reachable m) :
    ∀ before row after, m.rows = before ++ row :: after → m.InTime before.getLast? row := by
  obtain ⟨t, l, -, -, hcourses⟩ := exists_onCourse hpaced h
  intro before row after hrows
  obtain ⟨p, origin, hcourse⟩ := hcourses.course_at hrows
  refine ⟨p, origin, ?_, ?_, ?_, ?_⟩
  · rw [hcourses.setup]
    exact hcourse.lies
  · rw [hcourses.setup]
    exact hcourse.arm
  · have hspeed : trackWidth / v.seekSpeed = n := by
      rw [← hpaced.ticks, mul_div_cancel_right₀ _ hpaced.seek.ne']
    rw [drive_eq hcourses.setup]
    show _ = trackWidth / v.seekSpeed * _
    rw [hspeed]
    unfold Row.seekTime
    rw [hcourse.rotBegin_eq]
    push_cast
    ring
  · have htimer : row.timer ≤ row.rotBegin + 2 * v.revolution := hcourse.timer_le hpaced.rotate
    rw [drive_eq hcourses.setup]
    show (row.timer : Int) - row.seekBegin ≤
      row.rotBegin - row.seekBegin + 2 * (v.revolution : Nat)
    omega

/-- The loop of `Go` ends with every request served once and in time. -/
def Completes (c : Config) (v : Drive) : Prop :=
  ∃ k m₀ m, start c v = .ok m₀ ∧ loop k m₀ = .ok m ∧ m.disk.isDone = true ∧
    m.disk.served.Perm
      (List.range ((makeRequests c.addr).length + (makeRequests c.lateAddr).length)) ∧
    m.rows.length = m.disk.served.length ∧
    ∀ before row after, m.rows = before ++ row :: after → m.InTime before.getLast? row

/-- A machine that is done has served everything. -/
theorem finished_of_done (hvalid : Disk.ValidConfig c l) (hpaced : Paced v n)
    (hinitial : (makeRequests c.addr).mapM Block.toInt = .ok initial) (hne : initial ≠ [])
    (h : (program c v).Reachable m) (hdone : m.disk.isDone = true) :
    Disk.Finished c initial m.disk := by
  have hreach := refines (window_ne_zero hvalid) hpaced h
  obtain ⟨-, hfinished | ⟨i, hi⟩⟩ := Disk.going_reachable hvalid hinitial hne hreach
  · exact hfinished
  · rw [hi.going] at hdone
    cases hdone

theorem Completes.generated (h : Completes c v) (hvalid : Disk.ValidConfig c l)
    (hpaced : Paced v n) : ∃ blocks, c.lateAddr = .generated blocks := by
  obtain ⟨initial, hinitial, hne, -⟩ := hvalid.exists_initial
  obtain ⟨k, m₀, m, hstart, hloop, hdone, -⟩ := h
  have hreach := reachable_loop (Lts.Reachable.of_init hstart) hloop
  exact (finished_of_done hvalid hpaced hinitial hne hreach hdone).generated

/-- At any speeds, the requests are all served exactly if the late ones are not listed. -/
theorem completes_iff (hvalid : Disk.ValidConfig c l) (hrotate : 0 < v.rotateSpeed)
    (hseek : 0 < v.seekSpeed) (haccepted : checkSeekSpeed v.seekSpeed = .ok ()) :
    Completes c v ↔ ∃ blocks, c.lateAddr = .generated blocks := by
  obtain ⟨n, hpaced⟩ := exists_paced hrotate hseek haccepted
  constructor
  · intro h
    exact h.generated hvalid hpaced
  · intro ⟨blocks, hblocks⟩
    obtain ⟨initial, hinitial, hne, hlength, -⟩ := hvalid.exists_initial
    have hserves := Disk.servesAll_of_generated hvalid hblocks
    obtain ⟨m₀, hstart⟩ := start_total (v := v) hvalid hrotate.ne' haccepted hserves
    have hreach₀ : (program c v).Reachable m₀ := Lts.Reachable.of_init hstart
    -- as many ticks as all the requests can take
    obtain ⟨m, hloop, hend⟩ := loop_total
      (fun m hreach hgoing =>
        animate_total (window_ne_zero hvalid) hpaced hserves hreach hgoing)
      (((makeRequests c.addr).length + (makeRequests c.lateAddr).length + 1) * longest v n)
      hreach₀
    have hreach := reachable_loop hreach₀ hloop
    have hdone : m.disk.isDone = true := by
      rcases hend with hdone | htimer
      · exact hdone
      · by_contra hnot
        have hlt := timer_lt_of_going hvalid hpaced hreach (Bool.eq_false_iff.mpr hnot)
        omega
    have hends := finished_of_done hvalid hpaced hinitial hne hreach hdone
    have hserved := hends.served_perm
    rw [hlength] at hserved
    have hrows : m.rows.length = m.disk.served.length := by
      obtain ⟨hbooked, hall⟩ := (Clocked.accounts (reachable_clocked hreach)).done hdone
      have hcount : m.rows.length = m.disk.requestQueue.length := hbooked.count.trans hall
      rw [hcount, hends.served.length_eq, List.length_range]
    exact ⟨_, m₀, m, hstart, hloop, hdone, hserved, hrows, inTime hpaced hreach⟩

theorem completes_iff_batches :
    Completes ⟨(30, 30, 30), .BSATF, 2, .listed ['7', ',', '3'], .generated [1]⟩ ⟨7, 8, -2⟩ ↔
      ∃ blocks, Addr.generated [1] = .generated blocks := by
  refine completes_iff (l := ⟨12, 12, 12⟩) ⟨rfl, Or.inr (by decide), by decide, ?_, ?_⟩
    (by decide) (by decide) (by decide +kernel)
  · have hnumbers : ∀ block ∈ makeRequests (.listed ['7', ',', '3']),
        Disk.isNumber ⟨12, 12, 12⟩ block = true := by decide +kernel
    exact fun block hblock => Disk.exists_of_isNumber (hnumbers block hblock)
  · have hnumbers : ∀ block ∈ makeRequests (.generated [1]),
        Disk.isNumber ⟨12, 12, 12⟩ block = true := by decide +kernel
    exact fun block hblock => Disk.exists_of_isNumber (hnumbers block hblock)

/-- The text of a late request stops the machine with the first decision that looks at it. -/
theorem lateListed_stops :
    Disk.ValidConfig Disk.lateListed ⟨12, 12, 12⟩ ∧ checkSeekSpeed 1 = .ok () ∧
      ¬Completes Disk.lateListed ⟨1, 1, 0⟩ ∧
      ∃ m, (program Disk.lateListed ⟨1, 1, 0⟩).Reachable m ∧ m.disk.isDone = false ∧
        m.animate = .error .keyError := by
  refine ⟨Disk.lateListed_valid, by decide +kernel, fun hcompletes => ?_, ?_⟩
  · have hpaced : Paced ⟨1, 1, 0⟩ 40 := ⟨by decide, by decide, by decide +kernel⟩
    obtain ⟨blocks, hblocks⟩ := hcompletes.generated Disk.lateListed_valid hpaced
    cases hblocks
  · obtain ⟨m, hreach, hstops⟩ := exists_run (c := Disk.lateListed) (v := ⟨1, 1, 0⟩) 194
      (P := fun m => decide (m.disk.isDone = false) && (match m.animate with
        | .ok _ => false
        | .error e => decide (e = .keyError)))
      (by decide +kernel)
    rw [Bool.and_eq_true, decide_eq_true_eq] at hstops
    obtain ⟨hgoing, hstops⟩ := hstops
    refine ⟨m, hreach, hgoing, ?_⟩
    split at hstops
    · cases hstops
    · rename_i e hanimate
      rw [hanimate, of_decide_eq_true hstops]

end Ends

end Machine

end OsLab.Disks
