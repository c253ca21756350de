import OsLab.Disks.Clock
import OsLab.Lib.Linked

/-!
# Every tick is accounted for

The begins of the phases are set in four places: in `PlanSeek`, at the end of a seek, at the end
of a rotation, and where a transfer goes on. The lines `Block` and the line `TOTALS` add up because
on every way through a tick the request in flight has begun where the last one ended, and its
phases have begun one behind the other.

* **`Booked`** is about what has been printed: the rows follow one another without a gap up to a
  time `now`, and the totals are sums over the rows.
* **`Timed`** is about the request in flight: the begins that are set are in order and not later
  than the timer. Which of them are set depends on the state of the disk.
* **`Accounts`** puts the two together. While requests are left the books are closed up to the
  begin of the one in flight, in the end they are closed up to now.
* **`Accounted`** is what a reader of the output sees of this, in every reachable state.

Nothing here looks at the arm, the platter or an estimate, so the result holds for every speed and
for every rounding. See `Clocked`.
-/

namespace OsLab.Disks

/-- A request begins where the one before it has ended, and no phase of it is negative. The first
one begins at 0. -/
structure Row.Continues (prev : Option Row) (row : Row) : Prop where
  begins : row.seekBegin = (prev.map Row.timer).getD 0
  seek : row.seekBegin ≤ row.rotBegin
  rotate : row.rotBegin ≤ row.xferBegin
  xfer : row.xferBegin ≤ row.timer

/-- The four numbers of a line `Block` add up, whatever the begins are. -/
theorem Row.sum_times (row : Row) : row.seekTime + row.rotTime + row.xferTime = row.totalTime := by
  unfold seekTime rotTime xferTime totalTime
  omega

/-- No time of a row that fits the one before it is negative. -/
theorem Row.Continues.nonneg {prev : Option Row} {row : Row} (h : row.Continues prev) :
    0 ≤ row.seekTime ∧ 0 ≤ row.rotTime ∧ 0 ≤ row.xferTime := by
  have hseek := h.seek
  have hrotate := h.rotate
  have hxfer := h.xfer
  unfold seekTime rotTime xferTime
  omega

namespace Clocked

variable {c c' : Clocked} {est : Block → Rat} {tick : Disk.Tick}

/-- The rows and the totals, when the requests so far have ended at `now`. -/
structure Booked (c : Clocked) (now : Nat) : Prop where
  linked : Linked Row.Continues none c.rows
  now : ((lastOr none c.rows).map Row.timer).getD 0 = now
  seekTotal : c.seekTotal = (c.rows.map Row.seekTime).sum
  rotTotal : c.rotTotal = (c.rows.map Row.rotTime).sum
  xferTotal : c.xferTotal = (c.rows.map Row.xferTime).sum
  count : c.rows.length = c.disk.requestCount

/-- The phases so far of the request in flight. A begin that the state has not come to yet still
holds what the request before has left, so nothing is said of it. -/
structure Timed (c : Clocked) : Prop where
  seek : c.seekBegin ≤ c.timer
  rotate : c.disk.state = .rotate → c.seekBegin ≤ c.rotBegin ∧ c.rotBegin ≤ c.timer
  xfer : c.disk.state = .xfer →
    c.seekBegin ≤ c.rotBegin ∧ c.rotBegin ≤ c.xferBegin ∧ c.xferBegin ≤ c.timer

/-- In flight the books are closed up to the begin of the request, in the end up to now. -/
structure Accounts (c : Clocked) : Prop where
  going : c.disk.isDone = false → c.Booked c.seekBegin ∧ c.Timed
  done : c.disk.isDone = true →
    c.Booked c.timer ∧ c.disk.requestCount = c.disk.requestQueue.length

/-! ## The parts of a tick

One lemma for each part, in the order of `Animate`. A seek and a rotation touch only the begins;
the books change in `DoRequestStats` alone. -/

/-- The books depend on the rows, the totals and the count, and on nothing else. -/
theorem Booked.of_eq {now : Nat} (h : c.Booked now) (hrows : c'.rows = c.rows)
    (hseek : c'.seekTotal = c.seekTotal) (hrot : c'.rotTotal = c.rotTotal)
    (hxfer : c'.xferTotal = c.xferTotal) (hcount : c'.disk.requestCount = c.disk.requestCount) :
    c'.Booked now := by
  refine ⟨?_, ?_, ?_, ?_, ?_, ?_⟩
  · rw [hrows]
    exact h.linked
  · rw [hrows]
    exact h.now
  · rw [hseek, hrows]
    exact h.seekTotal
  · rw [hrot, hrows]
    exact h.rotTotal
  · rw [hxfer, hrows]
    exact h.xferTotal
  · rw [hrows, hcount]
    exact h.count

/-- A tick in which nothing else happens moves the timer away from all the begins. -/
theorem Timed.ticked (h : c.Timed) : c.ticked.Timed := by
  refine ⟨Nat.le_succ_of_le h.seek, fun hstate => ?_, fun hstate => ?_⟩
  · obtain ⟨hseek, hrotate⟩ := h.rotate hstate
    exact ⟨hseek, Nat.le_succ_of_le hrotate⟩
  · obtain ⟨hseek, hrotate, hxfer⟩ := h.xfer hstate
    exact ⟨hseek, hrotate, Nat.le_succ_of_le hxfer⟩

/-- The end of a seek sets `rotBegin` to now, behind the begin of the seek. -/
theorem Timed.seeking (h : c.Timed) (hseeking : c.seeking tick = .ok c') : c'.Timed := by
  rcases seeking_cases hseeking with rfl | ⟨-, requestState, rfl⟩
  · exact h
  · refine ⟨h.seek, fun _ => ⟨h.seek, le_refl _⟩, fun hxfer => ?_⟩
    cases hxfer

/-- The end of a rotation sets `xferBegin` to now, behind the two other begins. -/
theorem Timed.rotating (h : c.Timed) (hrotating : c.rotating tick = .ok c') : c'.Timed := by
  rcases rotating_cases hrotating with rfl | ⟨hstate, requestState, rfl⟩
  · exact h
  · obtain ⟨hseek, hrotate⟩ := h.rotate hstate
    refine ⟨h.seek, fun hrotating => ?_, fun _ => ⟨hseek, hrotate, le_refl _⟩⟩
    cases hrotating

/-- Up to the transfer neither the books nor the begin of the request are touched. -/
theorem Booked.underway {c₁ c₂ : Clocked} (h : c.Booked c.seekBegin)
    (hgoing : c.disk.isDone = false) (hseeking : c.ticked.seeking tick = .ok c₁)
    (hrotating : c₁.rotating tick = .ok c₂) :
    c₂.Booked c₂.seekBegin ∧ c₂.disk.isDone = false := by
  have h₁ : c₁.Booked c₁.seekBegin ∧ c₁.disk.isDone = false := by
    rcases seeking_cases hseeking with rfl | ⟨-, requestState, rfl⟩
    · exact ⟨h.of_eq rfl rfl rfl rfl rfl, hgoing⟩
    · exact ⟨h.of_eq rfl rfl rfl rfl rfl, hgoing⟩
  obtain ⟨hbooked, hgoing₁⟩ := h₁
  rcases rotating_cases hrotating with rfl | ⟨-, requestState, rfl⟩
  · exact ⟨hbooked, hgoing₁⟩
  · exact ⟨hbooked.of_eq rfl rfl rfl rfl rfl, hgoing₁⟩

/-- `DoRequestStats` closes the books up to now: the row begins where they were closed before, and
each total grows by the time that the row shows. -/
theorem Booked.ended {d : Disk} (h : c.Booked c.seekBegin) (hseek : c.seekBegin ≤ c.rotBegin)
    (hrotate : c.rotBegin ≤ c.xferBegin) (hxfer : c.xferBegin ≤ c.timer)
    (hcount : d.requestCount = c.disk.requestCount + 1) : (c.ended d).Booked c.timer := by
  refine ⟨?_, ?_, ?_, ?_, ?_, ?_⟩
  · exact linked_snoc.mpr ⟨h.linked, h.now.symm, hseek, hrotate, hxfer⟩
  · show ((lastOr none (c.rows ++ [c.row])).map Row.timer).getD 0 = c.timer
    rw [lastOr_snoc]
    rfl
  · show c.seekTotal + c.row.seekTime = ((c.rows ++ [c.row]).map Row.seekTime).sum
    rw [List.map_append, List.sum_append, ← h.seekTotal, List.map_singleton, List.sum_singleton]
  · show c.rotTotal + c.row.rotTime = ((c.rows ++ [c.row]).map Row.rotTime).sum
    rw [List.map_append, List.sum_append, ← h.rotTotal, List.map_singleton, List.sum_singleton]
  · show c.xferTotal + c.row.xferTime = ((c.rows ++ [c.row]).map Row.xferTime).sum
    rw [List.map_append, List.sum_append, ← h.xferTotal, List.map_singleton, List.sum_singleton]
  · show (c.rows ++ [c.row]).length = d.requestCount
    rw [List.length_append, List.length_singleton, h.count, hcount]

/-- A decision comes at the end of the request before it. It closes the program, or begins the next
request now; the books stay closed up to now either way. -/
theorem Booked.getNextIo (h : c.Booked c.timer) (hgoing : c.disk.isDone = false)
    (hnext : c.getNextIo est = .ok c') : c'.Accounts ∧ c'.Booked c'.timer := by
  rcases getNextIo_cases hnext with ⟨hall, rfl⟩ |
    ⟨d, e, hkept, ⟨hstate, rfl⟩ | ⟨hstate, rfl⟩⟩
  · have hbooked : Booked { c with disk := { c.disk with isDone := true } } c.timer :=
      h.of_eq rfl rfl rfl rfl rfl
    refine ⟨⟨fun hnot => ?_, fun _ => ⟨hbooked, hall⟩⟩, hbooked⟩
    cases hnot
  · -- the arm stays, and the wait begins with the request
    have hbooked : (c.stay d e).Booked c.timer := h.of_eq rfl rfl rfl rfl hkept.requestCount
    refine ⟨⟨fun _ => ⟨hbooked, le_refl _, fun _ => ⟨le_refl _, le_refl _⟩, fun hxfer => ?_⟩,
      fun hdone => ?_⟩, hbooked⟩
    · exact absurd (hstate.symm.trans hxfer) (by decide)
    · rw [show (c.stay d e).disk.isDone = false from hkept.isDone.trans hgoing] at hdone
      cases hdone
  · -- the arm leaves, and only the begin of the seek counts
    have hbooked : (c.leave d e).Booked c.timer := h.of_eq rfl rfl rfl rfl hkept.requestCount
    refine ⟨⟨fun _ => ⟨hbooked, le_refl _, fun hrotate => ?_, fun hxfer => ?_⟩,
      fun hdone => ?_⟩, hbooked⟩
    · exact absurd (hstate.symm.trans hrotate) (by decide)
    · exact absurd (hstate.symm.trans hxfer) (by decide)
    · rw [show (c.leave d e).disk.isDone = false from hkept.isDone.trans hgoing] at hdone
      cases hdone

/-- Where the transfer goes on, all the begins are set to now, and now the books are closed. -/
theorem Accounts.goesOn (h : c.Accounts) (hnow : c.Booked c.timer) (requestState : List State) :
    (c.goesOn requestState).Accounts := by
  refine ⟨fun _ => ⟨hnow.of_eq rfl rfl rfl rfl rfl, le_refl _, fun hrotate => ?_,
    fun _ => ⟨le_refl _, le_refl _, le_refl _⟩⟩, fun hdone => ?_⟩
  · cases hrotate
  · exact ⟨(h.done hdone).1.of_eq rfl rfl rfl rfl rfl, (h.done hdone).2⟩

/-- The end of a transfer: the row, the decision, and perhaps the next transfer at once. -/
theorem Accounts.transferred (hbooked : c.Booked c.seekBegin) (htimed : c.Timed)
    (hstate : c.disk.state = .xfer) (hgoing : c.disk.isDone = false)
    (htransferred : c.transferred est = .ok c') : c'.Accounts := by
  obtain ⟨d, c₁, hdone, hcount, hnext, hgoes⟩ := transferred_cases htransferred
  obtain ⟨hseek, hrotate, hxfer⟩ := htimed.xfer hstate
  have hended : (c.ended d).Booked (c.ended d).timer := hbooked.ended hseek hrotate hxfer hcount
  obtain ⟨haccounts, hnow⟩ := hended.getNextIo (hdone.trans hgoing) hnext
  rcases hgoes with rfl | ⟨requestState, rfl⟩
  · exact haccounts
  · exact haccounts.goesOn hnow requestState

/-- One tick keeps the accounts: up to two phases of the request in flight may end in it, and the
third may end with the next request begun. -/
theorem Accounts.animate (h : c.Accounts) (hgoing : c.disk.isDone = false)
    (hanimate : c.animate tick = .ok c') : c'.Accounts := by
  obtain ⟨c₁, c₂, hseeking, hrotating, htransferring⟩ := animate_parts hanimate
  obtain ⟨hbooked, htimed⟩ := h.going hgoing
  have htimed₂ := (htimed.ticked.seeking hseeking).rotating hrotating
  obtain ⟨hbooked₂, hgoing₂⟩ := hbooked.underway hgoing hseeking hrotating
  rcases transferring_cases htransferring with rfl | ⟨hstate, htransferred⟩
  · refine ⟨fun _ => ⟨hbooked₂, htimed₂⟩, fun hdone => ?_⟩
    rw [hgoing₂] at hdone
    cases hdone
  · exact transferred hbooked₂ htimed₂ hstate hgoing₂ htransferred

/-! ## Runs -/

/-- `__init__` counts nothing and is not done. -/
theorem new_counts {options : Config} {d : Disk} (h : Disk.new options = .ok d) :
    d.isDone = false ∧ d.requestCount = 0 := by
  unfold Disk.new at h
  obtain ⟨l, -, h⟩ := bind_eq_ok.mp h
  obtain ⟨requestQueue, requestState, rfl⟩ := Disk.addInitial_eq h
  exact ⟨rfl, rfl⟩

/-- In the beginning nothing has been printed, and the first request begins at 0. -/
theorem start_accounts {options : Config} (h : start options est = .ok c) : c.Accounts := by
  unfold start at h
  split at h
  · cases h
  · obtain ⟨d, hnew, hnext⟩ := bind_eq_ok.mp h
    obtain ⟨hgoing, hcount⟩ := new_counts hnew
    have hbooked : (initial d).Booked (initial d).timer :=
      ⟨trivial, rfl, rfl, rfl, rfl, hcount.symm⟩
    exact (hbooked.getNextIo hgoing hnext).1

/-- The accounts are kept in every run, whatever its ticks bring. -/
theorem accounts {options : Config} (h : (program options).Reachable c) : c.Accounts := by
  refine h.invariant (I := Accounts) ?_ ?_
  · intro c₀ ⟨est, hstart⟩
    exact start_accounts hstart
  · intro c₁ tick c₂ haccounts ⟨hgoing, hanimate⟩
    exact haccounts.animate hgoing hanimate

/-- Up to some time the books are closed, whether the program is done or not. -/
theorem exists_booked {options : Config} (h : (program options).Reachable c) :
    ∃ now, c.Booked now := by
  have haccounts := accounts h
  cases hdone : c.disk.isDone with
  | false => exact ⟨_, (haccounts.going hdone).1⟩
  | true => exact ⟨_, (haccounts.done hdone).1⟩

/-- What the lines `Block` and the line `TOTALS` say: no time is negative and each line adds up,
each request begins where the one before it has ended, the first one at 0, there is one line for
each request that has been served, and in the end the totals add up to the timer. -/
structure Accounted (c : Clocked) : Prop where
  times : ∀ row ∈ c.rows, 0 ≤ row.seekTime ∧ 0 ≤ row.rotTime ∧ 0 ≤ row.xferTime ∧
    row.seekTime + row.rotTime + row.xferTime = row.totalTime
  begins : ∀ before row after, c.rows = before ++ row :: after →
    row.seekBegin = (before.getLast?.map Row.timer).getD 0
  count : c.rows.length = c.disk.requestCount
  total : c.disk.isDone = true →
    c.rows.length = c.disk.requestQueue.length ∧
      c.seekTotal + c.rotTotal + c.xferTotal = c.timer

/-- The rows tile the time up to `now`, so their lengths and with them the totals add up to it. -/
theorem Booked.total {now : Nat} (h : c.Booked now) :
    c.seekTotal + c.rotTotal + c.xferTotal = now := by
  have hsum : c.seekTotal + c.rotTotal + c.xferTotal = (c.rows.map Row.totalTime).sum := by
    rw [h.seekTotal, h.rotTotal, h.xferTotal, ← List.sum_map_add, ← List.sum_map_add]
    exact congrArg List.sum (List.map_congr_left fun row _ => row.sum_times)
  have hlengths := h.linked.sum_lengths Row.seekBegin Row.timer fun _ _ hrow => hrow.begins
  rw [hsum, show (c.rows.map Row.totalTime).sum = _ from hlengths, h.now]
  exact Int.sub_zero _

/-- Books that are closed at some time have their rows in order. -/
theorem Booked.begins {now : Nat} (h : c.Booked now) {before after : List Row} {row : Row}
    (hrows : c.rows = before ++ row :: after) :
    row.seekBegin = (before.getLast?.map Row.timer).getD 0 := by
  have hlinked := h.linked
  rw [hrows] at hlinked
  have hrow := hlinked.holds
  rw [lastOr_none] at hrow
  exact hrow.begins

/-- **No tick is dropped or counted twice**, for every policy, window, zoning and request list, and
for every way the platter turns and the arm moves: the ticks are arbitrary. -/
theorem all_accounted {options : Config} (h : (program options).Reachable c) : c.Accounted := by
  obtain ⟨now, hbooked⟩ := exists_booked h
  refine ⟨?_, fun before row after hrows => hbooked.begins hrows, hbooked.count, fun hdone => ?_⟩
  · refine hbooked.linked.forall_mem fun prev row hrow => ?_
    obtain ⟨hseek, hrotate, hxfer⟩ := hrow.nonneg
    exact ⟨hseek, hrotate, hxfer, row.sum_times⟩
  · obtain ⟨hclosed, hall⟩ := (accounts h).done hdone
    exact ⟨hclosed.count.trans hall, hclosed.total⟩

/-- A seek, a transfer that goes on, and a late request, as the machine of exact numbers makes
them. -/
theorem all_accounted_threeBlocks :
    ∃ c, (program ⟨(30, 30, 30), .FIFO, -1, .listed ['7', ',', '3', '0'],
        .generated [31]⟩).Reachable c ∧
      c.disk.isDone = true ∧ c.rows.length = 3 ∧ c.Accounted := by
  obtain ⟨m, hreach, hrows⟩ := Machine.exists_run (v := ⟨10, 40, 0⟩) 100
    (c := ⟨(30, 30, 30), .FIFO, -1, .listed ['7', ',', '3', '0'], .generated [31]⟩)
    (P := fun m => decide (m.disk.isDone = true ∧ m.rows.length = 3)) (by decide +kernel)
  obtain ⟨hdone, hlength⟩ := of_decide_eq_true hrows
  have hclocked := Machine.reachable_clocked hreach
  exact ⟨m.clocked, hclocked, hdone, hlength, all_accounted hclocked⟩

end Clocked

end OsLab.Disks
