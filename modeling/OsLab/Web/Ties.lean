import OsLab.Web.Sched

/-!
# Requests of the same size

`sortQueue` takes the last of the smallest requests first, so it turns round those that have the
same size. `SFF` sorts in every call, also when it has inserted nothing.

* **`SFF_rounds`** -- a call of `SFF` as the rounds of its sort.
* **`Line`**, **`sffLine`** -- sequences of calls, with the number of the call that has inserted
  each request.
* **`Ahead`**, **`LineInv`** -- who stands in front of whom, by the parity of the calls since.
* **`sff_ties`** -- who is popped first.
-/

namespace OsLab.Web

open RearSelection

/-! ## One call of SFF -/

/-- Whether or not the request is inserted, the queue is sorted. -/
theorem SFF_rounds {m : Mem} {xs : List (Addr × Connection)} (h : IsQueue m xs) (c : Connection)
    {rs : List Request}
    (hrs : rs = if isFull m then requests xs else requests xs ++ [c.request]) :
    ∃ m' ys, SFF m c = some m' ∧ IsQueue m' ys ∧
      Rounds Request.key rs rs.length (requests ys) := by
  obtain ⟨b, m₁, ys, hins, hq, hys⟩ : ∃ b m₁ ys, insertConnection (mallocNode m c).2
      (some (mallocNode m c).1) = some (b, m₁) ∧ IsQueue m₁ ys ∧ requests ys = rs := by
    cases hfull : isFull m with
    | true =>
      obtain ⟨hq, _⟩ := mallocNode_spec h c
      refine ⟨_, _, xs, insertConnection_full hq hfull _, hq.recount _, ?_⟩
      rw [hrs, hfull]
      rfl
    | false =>
      have hroom : xs.length < m.queue.limit := by
        have hle := h.size_le
        have hne : xs.length ≠ m.queue.limit := by
          intro heq
          rw [(isFull_iff h).mpr heq] at hfull
          cases hfull
        omega
      obtain ⟨m₁, a, hins, hq, _⟩ := insertCopy_spec h hroom c
      refine ⟨_, m₁, _, hins, hq, ?_⟩
      rw [hrs, hfull]
      simp
  by_cases hlarge : m₁.queue.size > 1
  · obtain ⟨m', zs, hsort, hq', _, hrounds⟩ := sortQueue_rounds hq
    rw [hys] at hrounds
    exact ⟨m', zs, by simp [SFF, hins, hlarge, hsort], hq', hrounds⟩
  · refine ⟨m₁, ys, by simp [SFF, hins, hlarge], hq, ?_⟩
    -- a queue of one request at most is sorted
    rw [hq.size] at hlarge
    rw [← hys, length_requests]
    rcases ys with _ | ⟨y, _ | ⟨z, ys⟩⟩
    · exact .zero
    · exact Rounds.succ .zero (by simp) (isLastMin_singleton y.2.request)
    · simp at hlarge

/-! ## Who waits -/

/-- The queue, how often `SFF` has been called, and the waiting requests from the front on, each
with the number of the call that has inserted it. No code reads the last two. -/
structure Line where
  mem : Mem
  calls : Nat
  waiting : List (Nat × Request)

def Line.init (limit : Int) : Line := ⟨connectionQueueInit limit, 0, []⟩

/-- Who waits when a call of `SFF` begins to sort. -/
def Line.arrived (s : Line) (connection : Connection) : List (Nat × Request) :=
  if isFull s.mem then s.waiting else s.waiting ++ [(s.calls, connection.request)]

/-- A request keeps its number when `insertMinToRear` copies it. -/
inductive LineStep : Line → SffOp → Line → Prop where
  | insert {s : Line} {connection : Connection} {m : Mem} {waiting : List (Nat × Request)}
      (hsff : SFF s.mem connection = some m)
      (hrounds : Rounds (fun t => t.2.key) (s.arrived connection) (s.arrived connection).length
        waiting) :
      LineStep s (.insert connection) ⟨m, s.calls + 1, waiting⟩
  | pop {s : Line} {item : Option Addr} {m : Mem} (hpop : pop s.mem = some (item, m)) :
      LineStep s .pop ⟨m, s.calls, s.waiting.tail⟩

/-- All sequences of calls of `SFF` and `pop`. -/
def sffLine (limit : Int) : Lts Line SffOp := ⟨(· = .init limit), LineStep⟩

/-- `a` may stand in front of `b`: in order of their numbers if an odd number of calls has come
after both. -/
def Ahead (calls : Nat) (a b : Nat × Request) : Prop :=
  a.1 ≠ b.1 ∧ (a.1 < b.1 ↔ (calls - 1 - max a.1 b.1) % 2 = 1)

/-- Requests of the same size stand in that order. -/
structure LineInv (s : Line) (xs : List (Addr × Connection)) : Prop where
  isQueue : IsQueue s.mem xs
  waiting : requests xs = s.waiting.map Prod.snd
  number : ∀ t ∈ s.waiting, t.1 < s.calls
  ahead : s.waiting.Pairwise fun a b => a.2.key = b.2.key → Ahead s.calls a b

theorem lineInv_init (limit : Int) : LineInv (.init limit) [] where
  isQueue := isQueue_init limit
  waiting := rfl
  number t ht := by cases ht
  ahead := .nil

/-- Each call turns two requests round. -/
theorem Ahead.turn {calls : Nat} {a b : Nat × Request} (h : Ahead calls a b)
    (ha : a.1 < calls) (hb : b.1 < calls) : Ahead (calls + 1) b a := by
  obtain ⟨hne, hiff⟩ := h
  refine ⟨hne.symm, ?_⟩
  rw [Nat.max_comm b.1 a.1]
  omega

/-- A new request is sorted in front of the others of its size. -/
theorem ahead_new {calls : Nat} {a : Nat × Request} (ha : a.1 < calls) (r : Request) :
    Ahead (calls + 1) (calls, r) a := by
  refine ⟨Nat.ne_of_gt ha, ?_⟩
  dsimp only
  omega

variable {s t : Line} {xs : List (Addr × Connection)}

theorem LineInv.requests_arrived (h : LineInv s xs) (c : Connection) :
    (s.arrived c).map Prod.snd =
      if isFull s.mem then requests xs else requests xs ++ [c.request] := by
  unfold Line.arrived
  rw [h.waiting]
  split
  · rfl
  · rw [List.map_append]
    rfl

/-- A call of `SFF` turns round all requests of the same size. -/
theorem LineInv.insert (h : LineInv s xs) {c : Connection} {m : Mem}
    {waiting : List (Nat × Request)} (hsff : SFF s.mem c = some m)
    (hrounds : Rounds (fun t => t.2.key) (s.arrived c) (s.arrived c).length waiting) :
    ∃ ys, LineInv ⟨m, s.calls + 1, waiting⟩ ys := by
  obtain ⟨m', ys, hsff', hq, hsorted⟩ := SFF_rounds h.isQueue c (h.requests_arrived c)
  obtain rfl : m' = m := Option.some.inj (hsff'.symm.trans hsff)
  have hnumber : ∀ t ∈ s.arrived c, t.1 < s.calls + 1 := by
    intro t ht
    unfold Line.arrived at ht
    split at ht
    · exact Nat.lt_succ_of_lt (h.number t ht)
    · rcases List.mem_append.mp ht with hold | hnew
      · exact Nat.lt_succ_of_lt (h.number t hold)
      · rw [List.mem_singleton.mp hnew]
        exact Nat.lt_succ_self _
  -- before the sort everybody stands the wrong way round
  have hturned : (s.arrived c).Pairwise
      fun a b => a.2.key = b.2.key → Ahead (s.calls + 1) b a := by
    have hold : s.waiting.Pairwise fun a b => a.2.key = b.2.key → Ahead (s.calls + 1) b a :=
      h.ahead.imp_of_mem fun ha hb hab heq => (hab heq).turn (h.number _ ha) (h.number _ hb)
    unfold Line.arrived
    split
    · exact hold
    · rw [List.pairwise_append]
      refine ⟨hold, List.pairwise_singleton _ _, fun a ha b hb _ => ?_⟩
      rw [List.mem_singleton.mp hb]
      exact ahead_new (h.number a ha) _
  refine ⟨ys, hq, ?_, fun t ht => hnumber t (hrounds.perm.mem_iff.mp ht),
    hrounds.pairwise hturned⟩
  rw [List.length_map] at hsorted
  obtain ⟨waiting', hrounds', hmap⟩ := hsorted.lift
  rw [← hmap, hrounds.unique hrounds']

/-- The front is popped. -/
theorem LineInv.front (h : LineInv s xs) {t : Nat × Request} {rest : List (Nat × Request)}
    (hfront : s.waiting = t :: rest) : ∃ a c m ys, Web.pop s.mem = some (some a, m) ∧
      m.info a = some c ∧ c.request = t.2 ∧ IsQueue m ys ∧ requests ys = rest.map Prod.snd := by
  have hwaiting := h.waiting
  rw [hfront, List.map_cons] at hwaiting
  cases xs with
  | nil => cases hwaiting
  | cons x ys =>
    obtain ⟨a, c⟩ := x
    obtain ⟨hc, hys⟩ := List.cons.inj hwaiting
    obtain ⟨m, hpop, hq, hnodes, _⟩ := pop_cons h.isQueue
    obtain ⟨prev, hnode⟩ := h.isQueue.chain.nodes_eq (a, c) List.mem_cons_self
    exact ⟨a, c, m, ys, hpop, by simp [Mem.info, hnodes, hnode], hc, hq, hys⟩

/-- A pop takes the front and changes no order. -/
theorem LineInv.pop (h : LineInv s xs) {item : Option Addr} {m : Mem}
    (hpop : Web.pop s.mem = some (item, m)) :
    ∃ ys, LineInv ⟨m, s.calls, s.waiting.tail⟩ ys := by
  have hnumber : ∀ t ∈ s.waiting.tail, t.1 < s.calls :=
    fun t ht => h.number t (List.mem_of_mem_tail ht)
  cases hwaiting : s.waiting with
  | nil =>
    have hxs : xs = [] := by
      have heq := h.waiting
      rw [hwaiting] at heq
      exact List.map_eq_nil_iff.mp heq
    subst hxs
    rw [pop_nil h.isQueue] at hpop
    cases hpop
    exact ⟨[], h.isQueue, rfl, fun t ht => (by cases ht), .nil⟩
  | cons t rest =>
    obtain ⟨a, c, m', ys, hpop', _, _, hq, hys⟩ := h.front hwaiting
    rw [hpop] at hpop'
    cases hpop'
    rw [hwaiting] at hnumber
    have hahead := h.ahead
    rw [hwaiting, List.pairwise_cons] at hahead
    exact ⟨ys, hq, hys, hnumber, hahead.2⟩

/-- Either call keeps the order. -/
theorem lineInv_step (limit : Int) (s : Line) (op : SffOp) (t : Line) (h : ∃ xs, LineInv s xs)
    (hstep : (sffLine limit).step s op t) : ∃ ys, LineInv t ys := by
  obtain ⟨xs, h⟩ := h
  cases hstep with
  | insert hsff hrounds => exact h.insert hsff hrounds
  | pop hpop => exact h.pop hpop

/-- No call fails. -/
theorem LineInv.goes (h : LineInv s xs) (op : SffOp) : ∃ t, LineStep s op t := by
  cases op with
  | insert c =>
    obtain ⟨m, ys, hsff, _, hsorted⟩ := SFF_rounds h.isQueue c (h.requests_arrived c)
    rw [List.length_map] at hsorted
    obtain ⟨waiting, hrounds, _⟩ := hsorted.lift
    exact ⟨_, .insert hsff hrounds⟩
  | pop =>
    cases hwaiting : s.waiting with
    | nil =>
      have hxs : xs = [] := by
        have heq := h.waiting
        rw [hwaiting] at heq
        exact List.map_eq_nil_iff.mp heq
      subst hxs
      exact ⟨_, .pop (pop_nil h.isQueue)⟩
    | cons t rest =>
      obtain ⟨a, c, m, ys, hpop, _⟩ := h.front hwaiting
      exact ⟨_, .pop hpop⟩

/-- **The rule for ties.** Of two requests of the same size the earlier one is popped first exactly
if an odd number of calls of `SFF` has come after both. -/
theorem sff_ties (limit : Int) (ops : List SffOp) (s : Line)
    (hrun : (sffLine limit).Run (.init limit) ops s) :
    (∀ op, ∃ t, (sffLine limit).step s op t) ∧
    ∀ p r rest, s.waiting = (p, r) :: rest →
      (∃ a c m, pop s.mem = some (some a, m) ∧ m.info a = some c ∧ c.request = r) ∧
      ∀ q r', (q, r') ∈ rest → r.filesize = r'.filesize →
        (p < q ↔ (s.calls - 1 - max p q) % 2 = 1) := by
  obtain ⟨xs, h⟩ := hrun.invariant (lineInv_step limit) ⟨[], lineInv_init limit⟩
  refine ⟨h.goes, fun p r rest hwaiting => ?_⟩
  obtain ⟨a, c, m, _, hpop, hinfo, hrequest, _⟩ := h.front hwaiting
  refine ⟨⟨a, c, m, hpop, hinfo, hrequest⟩, fun q r' hmem hsize => ?_⟩
  have hahead := h.ahead
  rw [hwaiting, List.pairwise_cons] at hahead
  exact (hahead.1 (q, r') hmem (congrArg Int32.toInt hsize)).2

/-- Two requests of the same size after their insertion. -/
theorem exists_twoCalls (c c' : Connection) (hsize : c.filesize = c'.filesize) :
    ∃ m, (sffLine 2).Run (.init 2) [.insert c, .insert c']
      ⟨m, 2, [(1, c'.request), (0, c.request)]⟩ := by
  obtain ⟨m, xs, hsff, hq, hframe, hperm, _⟩ := SFF_spec (isQueue_init 2) (by decide) c
  have hone : xs.length = 1 := by simpa using hperm.length_eq
  have hlimit : m.queue.limit = 2 := hframe.limit
  obtain ⟨m', _, hsff', _⟩ := SFF_spec hq (by omega) c'
  have hfull : isFull m = false := by
    rw [← Bool.not_eq_true, isFull_iff hq, hlimit, hone]
    decide
  have hkey : c.request.key = c'.request.key := congrArg Int32.toInt hsize
  refine ⟨m', .cons (t := ⟨m, 1, [(0, c.request)]⟩) ?_ (.cons ?_ .nil)⟩
  · refine .insert hsff (Rounds.succ .zero ?_ (isLastMin_singleton (0, c.request)))
    exact Nat.zero_lt_one
  · have harrived : Line.arrived ⟨m, 1, [(0, c.request)]⟩ c' =
        [(0, c.request), (1, c'.request)] := by
      unfold Line.arrived
      rw [if_neg (by rw [hfull]; decide)]
      rfl
    refine .insert hsff' ?_
    rw [harrived]
    -- the last one is the last minimum, then the first one is
    have hfirst : IsLastMin (fun t : Nat × Request => t.2.key) 1
        [(0, c.request), (1, c'.request)] 1 :=
      (isLastMin_singleton (0, c.request)).snoc_of_le (Nat.le_refl 1) (le_of_eq hkey.symm)
    have hsecond : IsLastMin (fun t : Nat × Request => t.2.key) 0
        [(0, c.request), (1, c'.request)] 0 :=
      (isLastMin_singleton (0, c.request)).snoc_of_not
        (fun h => absurd h.2 (Nat.not_succ_le_zero 0))
    have hone : Rounds (fun t : Nat × Request => t.2.key) [(0, c.request), (1, c'.request)] 1
        (moveToRear 1 [(0, c.request), (1, c'.request)]) := .succ .zero Nat.two_pos hfirst
    exact hone.succ Nat.one_lt_two hsecond

/-- A connection with a file of one byte. -/
def oneByte (fd : Int32) : Connection := { connectionInit with fd := fd, filesize := 1 }

theorem sff_ties_two : ∃ s, (sffLine 2).Run (.init 2)
      [.insert (oneByte 4), .insert (oneByte 5)] s ∧
    (∀ op, ∃ t, (sffLine 2).step s op t) ∧
    ∃ a c m, pop s.mem = some (some a, m) ∧ m.info a = some c ∧
      c.request = (oneByte 5).request := by
  obtain ⟨m, hrun⟩ := exists_twoCalls (oneByte 4) (oneByte 5) rfl
  obtain ⟨hgoes, hfront⟩ := sff_ties 2 _ _ hrun
  exact ⟨_, hrun, hgoes, (hfront 1 _ _ rfl).1⟩

/-- The second of two requests of the same size is popped first. -/
theorem later_first : ∃ s a c m, (sffLine 2).Run (.init 2)
      [.insert (oneByte 4), .insert (oneByte 5)] s ∧
    s.waiting = [(1, (oneByte 5).request), (0, (oneByte 4).request)] ∧
    pop s.mem = some (some a, m) ∧ m.info a = some c ∧ c.request = (oneByte 5).request := by
  obtain ⟨m, hrun⟩ := exists_twoCalls (oneByte 4) (oneByte 5) rfl
  obtain ⟨xs, h⟩ := hrun.invariant (lineInv_step 2) ⟨[], lineInv_init 2⟩
  obtain ⟨a, c, m', _, hpop, hinfo, hrequest, _⟩ := h.front rfl
  exact ⟨_, a, c, m', hrun, rfl, hpop, hinfo, hrequest⟩

end OsLab.Web
