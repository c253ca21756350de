import OsLab.Lib.Lts
import OsLab.Web.Queue

/-!
# The queue and its history

A node is inserted, popped and perhaps inserted again with its old `prev`; and `pop` leaves `tail`
at the node it has taken, also when the queue is empty then. Neither is ever read: over all calls,
what `prev` links from `head` is what has been inserted and not popped.

* **`Session`**, **`QueueCall`**, **`queueCalls`** -- all sequences of calls on a new queue, with
  what they have returned so far.
* **`Session.Holds`** -- the invariant, kept by `Session.Holds.malloc`, `insert`, `refuse` and
  `pop`.
* **`Session.IsFifo`**, **`queue_isFifo`** -- a bounded queue, first in, first out, after every
  sequence of calls.
-/

namespace OsLab.Web

/-- The nodes that following `prev` from `h` visits in `k` steps. -/
def Mem.follow (m : Mem) : (k : Nat) → Option Addr → Option (List Addr)
  | 0, _ => some []
  | k + 1, h => do
    let a ← h
    let node ← m.nodes a
    let rest ← m.follow k node.prev
    return a :: rest

/-- Following `prev` visits the nodes of the chain. -/
theorem Chain.follow {m : Mem} {xs : List (Addr × Connection)} {h : Option Addr}
    (hchain : Chain m.nodes h xs) : m.follow xs.length h = some (xs.map Prod.fst) := by
  induction xs generalizing h with
  | nil => rfl
  | cons x xs ih =>
    obtain ⟨rfl, prev, hx, hrest⟩ := hchain
    show (do
      let node ← m.nodes x.1
      let rest ← m.follow xs.length node.prev
      return x.1 :: rest) = some (x.1 :: xs.map Prod.fst)
    rw [hx]
    show (do
      let rest ← m.follow xs.length prev
      return x.1 :: rest) = some (x.1 :: xs.map Prod.fst)
    rw [ih hrest]
    rfl

/-! ## The system -/

/-- The memory, and what the calls have returned so far. -/
structure Session where
  mem : Mem
  /-- the nodes for which `insert_connection` has returned true, in this order -/
  inserted : List Addr
  /-- the nodes that `pop` has returned, in this order -/
  popped : List Addr

/-- The nodes that have been inserted and not popped since. -/
def Session.waiting (s : Session) : List Addr := s.inserted.drop s.popped.length

inductive QueueCall where
  | malloc (node : Node)
  | insert (item : Addr)
  | pop

/-- Any node can be inserted that is not in the queue. -/
def Session.next (s : Session) : QueueCall → Option Session
  | .malloc node => some { s with mem := s.mem.malloc node }
  | .insert item =>
    if (s.mem.nodes item).isSome ∧ item ∉ s.waiting then do
      let (inserted, m) ← insertConnection s.mem (some item)
      return { s with
        mem := m
        inserted := if inserted then s.inserted ++ [item] else s.inserted }
    else
      none
  | .pop => do
    let (item, m) ← Web.pop s.mem
    return { s with mem := m, popped := s.popped ++ item.toList }

/-- All sequences of calls on a new queue. -/
def queueCalls (limit : Int) : Lts Session QueueCall :=
  .ofFun (· = ⟨connectionQueueInit limit, [], []⟩) Session.next

/-! ## The invariant -/

/-- The queue holds `xs`, which is what the calls have left in it. -/
structure Session.Holds (s : Session) (xs : List (Addr × Connection)) : Prop where
  queue : IsQueue s.mem xs
  fifo : s.inserted = s.popped ++ xs.map Prod.fst
  allocated : ∀ a, (s.mem.nodes a).isSome → a < s.mem.brk

section Calls

variable {s t : Session} {xs : List (Addr × Connection)} {a : Addr}

theorem Session.Holds.waiting_eq (h : s.Holds xs) : s.waiting = xs.map Prod.fst := by
  unfold waiting
  rw [h.fifo, List.drop_left]

/-- A fresh node is not linked to anything. -/
theorem Session.Holds.malloc (h : s.Holds xs) (node : Node) :
    Session.Holds { s with mem := s.mem.malloc node } xs := by
  refine ⟨h.queue.malloc node, h.fifo, fun a ha => ?_⟩
  by_cases hnew : a = s.mem.brk
  · rw [hnew]
    exact Nat.lt_succ_self _
  · have hold : (s.mem.nodes a).isSome := by
      rw [← Function.update_of_ne hnew (some node) s.mem.nodes]
      exact ha
    exact Nat.lt_succ_of_lt (h.allocated a hold)

/-- A node that is not waiting is appended, whatever its `prev` was. -/
theorem Session.Holds.insert (h : s.Holds xs) (ha : (s.mem.nodes a).isSome)
    (hnew : a ∉ s.waiting) (hroom : s.mem.queue.size < s.mem.queue.limit) :
    ∃ m xs', insertConnection s.mem (some a) = some (true, m) ∧
      m.queue.limit = s.mem.queue.limit ∧
      Session.Holds { s with mem := m, inserted := s.inserted ++ [a] } xs' := by
  obtain ⟨⟨c, prev⟩, hnode⟩ := Option.isSome_iff_exists.mp ha
  rw [h.queue.size] at hroom
  rw [h.waiting_eq] at hnew
  have hinfo : s.mem.info a = some c := by
    unfold Mem.info
    rw [hnode]
    rfl
  obtain ⟨m, hins, hqueue, hframe⟩ :=
    insertConnection_ok h.queue hroom hinfo hnew (h.allocated a ha)
  obtain ⟨hbrk, hnodes⟩ := insertConnection_nodes hins
  refine ⟨m, xs ++ [(a, c)], hins, hframe.limit, hqueue, ?_, fun b hb => ?_⟩
  · show s.inserted ++ [a] = s.popped ++ (xs ++ [(a, c)]).map Prod.fst
    rw [h.fifo, List.map_append, List.append_assoc]
    rfl
  · rw [hnodes b] at hb
    exact hbrk ▸ h.allocated b hb

/-- A full queue refuses and is what it was. -/
theorem Session.Holds.refuse (h : s.Holds xs) (hfull : ¬s.mem.queue.size < s.mem.queue.limit)
    (item : Option Addr) :
    insertConnection s.mem item = some (false, { s.mem with refused := s.mem.refused + 1 }) := by
  refine insertConnection_full h.queue ?_ item
  have hle := h.queue.size_le
  rw [h.queue.size] at hfull
  exact (isFull_iff h.queue).mpr (by omega)

/-- The oldest node is popped, or nothing from an empty queue. -/
theorem Session.Holds.pop (h : s.Holds xs) : ∃ m, Web.pop s.mem = some (s.waiting.head?, m) ∧
    m.queue.limit = s.mem.queue.limit ∧ (xs = [] → m = s.mem) ∧
    Session.Holds { s with mem := m, popped := s.popped ++ s.waiting.head?.toList } xs.tail := by
  rw [h.waiting_eq]
  cases xs with
  | nil =>
    -- nothing is taken, and `tail` still names the node taken last
    refine ⟨s.mem, pop_nil h.queue, rfl, fun _ => rfl, h.queue, ?_, h.allocated⟩
    show s.inserted = (s.popped ++ []) ++ []
    rw [List.append_nil]
    exact h.fifo
  | cons x xs =>
    obtain ⟨a, c⟩ := x
    obtain ⟨m, hpop, hqueue, hnodes, hframe⟩ := pop_cons h.queue
    refine ⟨m, hpop, hframe.limit, fun hnil => absurd hnil (List.cons_ne_nil _ _), hqueue, ?_,
      fun b hb => ?_⟩
    · show s.inserted = (s.popped ++ [a]) ++ xs.map Prod.fst
      rw [h.fifo, List.append_assoc]
      rfl
    · rw [show m.nodes = s.mem.nodes from hnodes] at hb
      exact Nat.lt_of_lt_of_le (h.allocated b hb) hframe.brk

/-- Each call keeps the limit and leaves a queue that holds what it should. -/
theorem Session.Holds.next {call : QueueCall} (h : s.Holds xs) (hnext : s.next call = some t) :
    t.mem.queue.limit = s.mem.queue.limit ∧ ∃ ys, t.Holds ys := by
  cases call with
  | malloc node =>
    cases hnext
    exact ⟨rfl, xs, h.malloc node⟩
  | insert a =>
    simp only [Session.next] at hnext
    split at hnext
    · rename_i hallowed
      by_cases hroom : s.mem.queue.size < s.mem.queue.limit
      · obtain ⟨m, ys, hins, hlimit, hholds⟩ := h.insert hallowed.1 hallowed.2 hroom
        rw [hins] at hnext
        cases hnext
        exact ⟨hlimit, ys, hholds⟩
      · -- a full queue counts the refusal and keeps its nodes
        rw [h.refuse hroom] at hnext
        cases hnext
        exact ⟨rfl, xs, h.queue.recount _, h.fifo, h.allocated⟩
    · cases hnext
  | pop =>
    obtain ⟨m, hpop, hlimit, -, hholds⟩ := h.pop
    simp only [Session.next] at hnext
    rw [hpop] at hnext
    cases hnext
    exact ⟨hlimit, _, hholds⟩

end Calls

theorem holds_init (limit : Int) : Session.Holds ⟨connectionQueueInit limit, [], []⟩ [] :=
  ⟨isQueue_init limit, rfl, fun _ ha => by cases ha⟩

theorem reachable_holds {limit : Int} {s : Session} (h : (queueCalls limit).Reachable s) :
    s.mem.queue.limit = (connectionQueueInit limit).queue.limit ∧ ∃ xs, s.Holds xs := by
  refine h.invariant (I := fun s => s.mem.queue.limit = (connectionQueueInit limit).queue.limit ∧
    ∃ xs, s.Holds xs) ?_ ?_
  · rintro s rfl
    exact ⟨rfl, [], holds_init limit⟩
  · intro s call t ⟨hlimit, xs, hholds⟩ hnext
    obtain ⟨hsame, hlater⟩ := hholds.next hnext
    exact ⟨hsame.trans hlimit, hlater⟩

/-! ## What the calls see -/

/-- A bounded queue: first in, first out. -/
structure Session.IsFifo (s : Session) (limit : Nat) : Prop where
  fifo : s.inserted = s.popped ++ s.waiting
  visits : s.mem.follow s.mem.queue.size s.mem.queue.head = some s.waiting
  nodup : s.waiting.Nodup
  tail : 0 < s.mem.queue.size → s.mem.queue.tail = s.waiting.getLast?
  size_le : s.mem.queue.size ≤ limit
  inserts : ∀ item, (s.mem.nodes item).isSome → item ∉ s.waiting → s.mem.queue.size < limit →
    ∃ m, insertConnection s.mem (some item) = some (true, m)
  refuses : s.mem.queue.size = limit → ∀ item, ∃ m, insertConnection s.mem item = some (false, m) ∧
    m.nodes = s.mem.nodes ∧ m.brk = s.mem.brk ∧ m.queue = s.mem.queue
  pops : ∃ m, Web.pop s.mem = some (s.waiting.head?, m)
  empty : s.mem.queue.size = 0 → Web.pop s.mem = some (none, s.mem)

/-- **The queue is a queue.** After every sequence of calls it is bounded, and first in, first
out. -/
theorem queue_isFifo {limit : Int} {s : Session} (h : (queueCalls limit).Reachable s) :
    s.IsFifo (if limit ≤ 0 then 65535 else limit).toNat := by
  obtain ⟨hlimit, xs, hholds⟩ := reachable_holds h
  have hlimit' : s.mem.queue.limit = (if limit ≤ 0 then 65535 else limit).toNat := hlimit
  rw [← hlimit']
  have hwaiting := hholds.waiting_eq
  have hqueue := hholds.queue
  obtain ⟨m, hpop, -, hsame, -⟩ := hholds.pop
  refine ⟨?_, ?_, ?_, ?_, ?_, ?_, ?_, ⟨m, hpop⟩, ?_⟩
  · rw [hwaiting]
    exact hholds.fifo
  · rw [hwaiting, hqueue.size]
    exact hqueue.chain.follow
  · rw [hwaiting]
    exact hqueue.nodup
  · -- `tail` counts only when the queue is not empty
    intro hpos
    rw [hqueue.size] at hpos
    have hne : xs ≠ [] := List.ne_nil_of_length_pos hpos
    have hlast := List.getLast?_eq_some_getLast hne
    rw [hqueue.tail _ hlast, hwaiting, List.getLast?_map, hlast]
    rfl
  · rw [hqueue.size]
    exact hqueue.size_le
  · intro item hnode hnew hroom
    obtain ⟨m', _, hins, -, -⟩ := hholds.insert hnode hnew hroom
    exact ⟨m', hins⟩
  · intro hfull item
    exact ⟨_, hholds.refuse (by omega) item, rfl, rfl, rfl⟩
  · intro hempty
    rw [hqueue.size] at hempty
    have hnil := List.eq_nil_of_length_eq_zero hempty
    rw [hsame hnil] at hpop
    rw [hpop, hwaiting, hnil]
    rfl

/-- Two nodes go through the queue, and the first one a second time. -/
theorem queue_isFifo_again : ∃ s, (queueCalls 2).Reachable s ∧ s.inserted = [0, 1, 0] ∧
    s.popped = [0, 1] ∧ s.IsFifo 2 := by
  obtain ⟨s, hrun, hinserted, hpopped⟩ : ∃ s,
      [.malloc ⟨connectionInit, some 7⟩, .malloc ⟨connectionInit, none⟩, .insert 0, .insert 1,
        .pop, .pop, .pop, .insert 0].foldlM Session.next ⟨connectionQueueInit 2, [], []⟩ = some s ∧
        s.inserted = [0, 1, 0] ∧ s.popped = [0, 1] :=
    ⟨_, rfl, rfl, rfl⟩
  have hreach : (queueCalls 2).Reachable s := ⟨_, _, rfl, Lts.run_ofFun.mpr hrun⟩
  exact ⟨s, hreach, hinserted, hpopped, queue_isFifo hreach⟩

end OsLab.Web
