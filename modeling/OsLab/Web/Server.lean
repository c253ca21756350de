import Mathlib.Data.Fintype.Basic
import OsLab.Lib.CondVar
import OsLab.Web.Sched

/-!
# The web server's threads

`main`'s accept loop and the `worker_thread` loops over one queue. What a thread does from taking
`queue->lock` to its first unlock or wait is one step; a thread that a signal (or nothing at all)
has woken starts over at its wait loop.

* **`MainPc`**, **`WorkerPc`**, **`Server`**, **`serverNext`** -- the program points, the state of
  all threads, and the steps.
* **`signalSleep`**, **`signalFull`** -- a signal wakes one thread of those that wait, if there is
  any.
* **`Delivery`** -- the invariant: the queue is well formed and holds what was handed over and not
  popped yet.
* **`Effect`**, **`Delivery.step`** -- what a step does, once for all that is proved of runs.
* **`exactly_once_delivery`** -- nothing is lost, doubled or refused, in any run.
-/

namespace OsLab.Web

/-- Where `main` is. A connection it carries has been read and is not in the queue yet. -/
inductive MainPc where
  | accepting
  | arrived (conn : Connection)
  | waiting (conn : Connection)
  | woken (conn : Connection)

inductive WorkerPc where
  | idle
  | waiting
  | woken
  | handling (request : Addr)
  deriving DecidableEq

inductive Scheduler where
  | FIFO
  | SFF
  deriving DecidableEq

/-- `schedAlgo` -/
def schedAlgo : Scheduler → Mem → Connection → Option Mem
  | .FIFO => FIFO
  | .SFF => SFF

/-- The shared queue and the threads' program points. `handed` and `popped` record the requests
handed to the scheduler and popped by workers, `nullPops` the pops that returned NULL. -/
structure Server (n : Nat) where
  mem : Mem
  main : MainPc
  worker : Fin n → WorkerPc
  handed : List Request
  popped : List Request
  nullPops : Nat

inductive ServerStep (n : Nat) where
  | arrive (conn : Connection)
  | main (choice : Option (Fin n))
  | worker (i : Fin n)
  | finish (i : Fin n)
  | spuriousMain
  | spuriousWorker (i : Fin n)

variable {n : Nat}

def WorkerPc.isWaiting : WorkerPc → Bool
  | .waiting => true
  | _ => false

/-- `pthread_cond_signal(queue->sleep)` -/
def signalSleep (worker : Fin n → WorkerPc) (choice : Option (Fin n)) :
    Option (Fin n → WorkerPc) :=
  CondVar.signal WorkerPc.isWaiting (fun _ => .woken) worker choice

/-- `pthread_cond_signal(queue->full)`; only `main` ever waits there. -/
def signalFull : MainPc → MainPc
  | .waiting conn => .woken conn
  | main => main

/-- `main` from `pthread_mutex_lock` to the wait or the unlock. -/
def mainSection (scheduler : Scheduler) (s : Server n) (conn : Connection)
    (choice : Option (Fin n)) : Option (Server n) :=
  if isFull s.mem then
    if choice = none then some { s with main := .waiting conn } else none
  else do
    let m ← schedAlgo scheduler s.mem conn
    let worker ← signalSleep s.worker choice
    return { s with
      mem := m, main := .accepting, worker := worker, handed := s.handed ++ [conn.request] }

/-- A worker from `pthread_mutex_lock` to the wait or the first unlock. -/
def workerSection (s : Server n) (i : Fin n) : Option (Server n) :=
  if isEmpty s.mem then
    some { s with worker := Function.update s.worker i .waiting }
  else do
    let main := if isFull s.mem then s.main else signalFull s.main
    let (request, m) ← pop s.mem
    match request with
    | none => return { s with mem := m, main := main, nullPops := s.nullPops + 1 }
    | some a => do
      let info ← m.info a
      return { s with
        mem := m, main := main, worker := Function.update s.worker i (.handling a),
        popped := s.popped ++ [info.request] }

def serverNext (scheduler : Scheduler) (s : Server n) : ServerStep n → Option (Server n)
  | .arrive conn =>
    match s.main with
    | .accepting => some { s with main := .arrived conn }
    | _ => none
  | .main choice =>
    match s.main with
    | .arrived conn | .woken conn => mainSection scheduler s conn choice
    | _ => none
  | .worker i =>
    match s.worker i with
    | .idle | .woken => workerSection s i
    | _ => none
  | .finish i =>
    match s.worker i with
    | .handling _ => some { s with worker := Function.update s.worker i .idle }
    | _ => none
  | .spuriousMain =>
    match s.main with
    | .waiting conn => some { s with main := .woken conn }
    | _ => none
  | .spuriousWorker i =>
    match s.worker i with
    | .waiting => some { s with worker := Function.update s.worker i .woken }
    | _ => none

def Server.init (n : Nat) (limit : Int) : Server n where
  mem := connectionQueueInit limit
  main := .accepting
  worker _ := .idle
  handed := []
  popped := []
  nullPops := 0

def serverSystem (n : Nat) (limit : Int) (scheduler : Scheduler) : Lts (Server n) (ServerStep n) :=
  .ofFun (· = .init n limit) (serverNext scheduler)

/-! ## Delivery -/

/-- Either scheduler adds the connection to a queue with room. -/
theorem schedAlgo_spec {m : Mem} {xs : List (Addr × Connection)} (h : IsQueue m xs)
    (hroom : xs.length < m.queue.limit) (scheduler : Scheduler) (c : Connection) :
    ∃ m' ys, schedAlgo scheduler m c = some m' ∧ IsQueue m' ys ∧ Frame m m' ∧
      (requests ys).Perm (requests xs ++ [c.request]) ∧
      (scheduler = .FIFO → requests ys = requests xs ++ [c.request]) := by
  cases scheduler with
  | FIFO =>
    obtain ⟨m', ys, hfifo, hq, hframe, heq⟩ := FIFO_spec h hroom c
    exact ⟨m', ys, hfifo, hq, hframe, by rw [heq], fun _ => heq⟩
  | SFF =>
    obtain ⟨m', ys, hsff, hq, hframe, hperm, _⟩ := SFF_spec h hroom c
    exact ⟨m', ys, hsff, hq, hframe, hperm, fun h => by cases h⟩

/-- The queue is well formed and holds what was handed over and not popped yet. -/
structure Delivery (limit : Nat) (scheduler : Scheduler) (s : Server n)
    (xs : List (Addr × Connection)) : Prop where
  isQueue : IsQueue s.mem xs
  limit : s.mem.queue.limit = limit
  refused : s.mem.refused = 0
  nullPops : s.nullPops = 0
  conserved : s.handed.Perm (s.popped ++ requests xs)
  inOrder : scheduler = .FIFO → s.handed = s.popped ++ requests xs

section Sections

variable {limit : Nat} {scheduler : Scheduler} {s : Server n} {xs : List (Addr × Connection)}

/-- The server starts with an empty queue. -/
theorem delivery_init (hlimit : 1 ≤ limit) (scheduler : Scheduler) :
    Delivery limit scheduler (Server.init n limit) [] where
  isQueue := isQueue_init limit
  limit := by
    have hpos : limit ≠ 0 := by omega
    simp [Server.init, connectionQueueInit, hpos]
  refused := rfl
  nullPops := rfl
  conserved := .refl _
  inOrder _ := rfl

/-- The invariant does not look at program points. -/
theorem Delivery.congr (h : Delivery limit scheduler s xs) {t : Server n} (hmem : t.mem = s.mem)
    (hhanded : t.handed = s.handed) (hpopped : t.popped = s.popped)
    (hnull : t.nullPops = s.nullPops) : Delivery limit scheduler t xs where
  isQueue := hmem ▸ h.isQueue
  limit := hmem ▸ h.limit
  refused := hmem ▸ h.refused
  nullPops := hnull.trans h.nullPops
  conserved := hhanded ▸ hpopped ▸ h.conserved
  inOrder hfifo := hhanded ▸ hpopped ▸ h.inOrder hfifo

/-- A queue that is not full has room. -/
theorem Delivery.size_lt (h : Delivery limit scheduler s xs) (hfull : isFull s.mem = false) :
    xs.length < limit := by
  have hle := h.isQueue.size_le
  have hne : xs.length ≠ s.mem.queue.limit := by
    intro heq
    rw [(isFull_iff h.isQueue).mpr heq] at hfull
    cases hfull
  rw [h.limit] at hle hne
  omega

/-- `main`'s section, when the queue is not full, adds the connection and signals `sleep`. -/
theorem Delivery.mainSection (h : Delivery limit scheduler s xs) (hfull : isFull s.mem = false)
    (conn : Connection) (choice : Option (Fin n)) :
    ∃ m' ys, Web.mainSection scheduler s conn choice =
        (signalSleep s.worker choice).map (fun worker => { s with
          mem := m', main := .accepting, worker := worker
          handed := s.handed ++ [conn.request] }) ∧
      ys.length = xs.length + 1 ∧ ∀ worker : Fin n → WorkerPc, Delivery limit scheduler { s with
        mem := m', main := .accepting, worker := worker
        handed := s.handed ++ [conn.request] } ys := by
  have hroom : xs.length < s.mem.queue.limit := h.limit ▸ h.size_lt hfull
  obtain ⟨m', ys, hsched, hq, hframe, hperm, hfifo⟩ :=
    schedAlgo_spec h.isQueue hroom scheduler conn
  refine ⟨m', ys, ?_, by simpa using hperm.length_eq, fun worker => ⟨hq, ?_, ?_, h.nullPops, ?_, ?_⟩⟩
  · cases hsignal : signalSleep s.worker choice <;>
      simp [Web.mainSection, hfull, hsched, hsignal]
  · rw [hframe.limit, h.limit]
  · rw [hframe.refused, h.refused]
  · calc s.handed ++ [conn.request]
      _ |>.Perm (s.popped ++ requests xs ++ [conn.request]) := h.conserved.append_right _
      _ |>.Perm (s.popped ++ requests ys) := by
        rw [List.append_assoc]
        exact hperm.symm.append_left _
  · intro heq
    rw [h.inOrder heq, hfifo heq, List.append_assoc]

/-- A worker's section, when the queue is not empty, takes its oldest connection. -/
theorem Delivery.workerSection (h : Delivery limit scheduler s xs) (hne : xs ≠ []) (i : Fin n) :
    ∃ a t ys, Web.workerSection s i = some t ∧ Delivery limit scheduler t ys ∧
      xs.length = ys.length + 1 ∧ t.worker = Function.update s.worker i (.handling a) ∧
      t.main = if isFull s.mem then s.main else signalFull s.main := by
  cases xs with
  | nil => exact absurd rfl hne
  | cons x ys =>
    obtain ⟨a, c⟩ := x
    obtain ⟨m', hpop, hq, hnodes, hframe⟩ := pop_cons h.isQueue
    obtain ⟨prev, hnode⟩ := h.isQueue.chain.nodes_eq (a, c) (by simp)
    have hinfo : m'.info a = some c := by simp [Mem.info, hnodes, hnode]
    have hempty : isEmpty s.mem = false := by simp [isEmpty, h.isQueue.size]
    refine ⟨a, { s with
        mem := m', main := if isFull s.mem then s.main else signalFull s.main,
        worker := Function.update s.worker i (.handling a), popped := s.popped ++ [c.request] },
      ys, ?_, ⟨hq, ?_, ?_, h.nullPops, ?_, ?_⟩, rfl, rfl, rfl⟩
    · simp [Web.workerSection, hempty, hpop, hinfo]
    · rw [hframe.limit, h.limit]
    · rw [hframe.refused, h.refused]
    · simpa using h.conserved
    · intro heq
      simpa using h.inOrder heq

/-- What a step does to the queue and to the program points. -/
inductive Effect (s : Server n) (xs : List (Addr × Connection)) (t : Server n)
    (ys : List (Addr × Connection)) : Prop where
  | arrived (conn : Connection) (main : t.main = .arrived conn) (worker : t.worker = s.worker)
      (queue : ys = xs)
  | mainWaits (conn : Connection) (full : isFull s.mem = true) (main : t.main = .waiting conn)
      (worker : t.worker = s.worker) (queue : ys = xs)
  | enqueued (choice : Option (Fin n)) (main : t.main = .accepting)
      (worker : signalSleep s.worker choice = some t.worker) (queue : ys.length = xs.length + 1)
  | workerWaits (i : Fin n) (empty : xs = []) (main : t.main = s.main)
      (worker : t.worker = Function.update s.worker i .waiting) (queue : ys = xs)
  | popped (i : Fin n) (a : Addr)
      (main : t.main = if isFull s.mem then s.main else signalFull s.main)
      (worker : t.worker = Function.update s.worker i (.handling a))
      (queue : xs.length = ys.length + 1)
  | finished (i : Fin n) (main : t.main = s.main)
      (worker : t.worker = Function.update s.worker i .idle) (queue : ys = xs)
  | mainWoken (conn : Connection) (main : t.main = .woken conn) (worker : t.worker = s.worker)
      (queue : ys = xs)
  | workerWoken (i : Fin n) (main : t.main = s.main)
      (worker : t.worker = Function.update s.worker i .woken) (queue : ys = xs)

/-- `main`'s section keeps the invariant, whether it waits or hands over. -/
theorem Delivery.mainStep (h : Delivery limit scheduler s xs) {conn : Connection}
    {choice : Option (Fin n)} {t : Server n}
    (hstep : Web.mainSection scheduler s conn choice = some t) :
    ∃ ys, Delivery limit scheduler t ys ∧ Effect s xs t ys := by
  cases hfull : isFull s.mem with
  | true =>
    obtain ⟨rfl, rfl⟩ : choice = none ∧ { s with main := .waiting conn } = t := by
      simpa [Web.mainSection, hfull] using hstep
    exact ⟨xs, h.congr rfl rfl rfl rfl, .mainWaits conn hfull rfl rfl rfl⟩
  | false =>
    obtain ⟨m', ys, heq, hlen, hinv⟩ := h.mainSection hfull conn choice
    rw [heq, Option.map_eq_some_iff] at hstep
    obtain ⟨worker, hsignal, rfl⟩ := hstep
    exact ⟨ys, hinv worker, .enqueued choice rfl hsignal hlen⟩

/-- A worker's section keeps it, whether it waits or pops. -/
theorem Delivery.workerStep (h : Delivery limit scheduler s xs) {i : Fin n} {t : Server n}
    (hstep : Web.workerSection s i = some t) :
    ∃ ys, Delivery limit scheduler t ys ∧ Effect s xs t ys := by
  by_cases hne : xs = []
  · have hempty : isEmpty s.mem = true := (isEmpty_iff h.isQueue).mpr hne
    obtain rfl : { s with worker := Function.update s.worker i .waiting } = t := by
      simpa [Web.workerSection, hempty] using hstep
    exact ⟨xs, h.congr rfl rfl rfl rfl, .workerWaits i hne rfl rfl rfl⟩
  · obtain ⟨a, t', ys, heq, hinv, hlen, hworker, hmain⟩ := h.workerSection hne i
    obtain rfl : t' = t := Option.some.inj (heq.symm.trans hstep)
    exact ⟨ys, hinv, .popped i a hmain hworker hlen⟩

/-- Every step keeps the invariant and has one of the effects. -/
theorem Delivery.step (h : Delivery limit scheduler s xs) {a : ServerStep n} {t : Server n}
    (hstep : serverNext scheduler s a = some t) :
    ∃ ys, Delivery limit scheduler t ys ∧ Effect s xs t ys := by
  cases a with
  | arrive conn =>
    cases hmain : s.main <;> simp only [serverNext, hmain, Option.some.injEq, reduceCtorEq] at hstep
    subst hstep
    exact ⟨xs, h.congr rfl rfl rfl rfl, .arrived conn rfl rfl rfl⟩
  | main choice =>
    cases hmain : s.main <;> simp only [serverNext, hmain, reduceCtorEq] at hstep
    · exact h.mainStep hstep
    · exact h.mainStep hstep
  | worker i =>
    cases hworker : s.worker i <;> simp only [serverNext, hworker, reduceCtorEq] at hstep
    · exact h.workerStep hstep
    · exact h.workerStep hstep
  | finish i =>
    cases hworker : s.worker i <;>
      simp only [serverNext, hworker, Option.some.injEq, reduceCtorEq] at hstep
    subst hstep
    exact ⟨xs, h.congr rfl rfl rfl rfl, .finished i rfl rfl rfl⟩
  | spuriousMain =>
    cases hmain : s.main <;> simp only [serverNext, hmain, Option.some.injEq, reduceCtorEq] at hstep
    subst hstep
    exact ⟨xs, h.congr rfl rfl rfl rfl, .mainWoken _ rfl rfl rfl⟩
  | spuriousWorker i =>
    cases hworker : s.worker i <;>
      simp only [serverNext, hworker, Option.some.injEq, reduceCtorEq] at hstep
    subst hstep
    exact ⟨xs, h.congr rfl rfl rfl rfl, .workerWoken i rfl rfl rfl⟩

end Sections

/-- So it holds in every reachable state. -/
theorem delivery_reachable {limit : Nat} (hlimit : 1 ≤ limit) (scheduler : Scheduler)
    {s : Server n} (h : (serverSystem n limit scheduler).Reachable s) :
    ∃ xs, Delivery limit scheduler s xs := by
  apply h.invariant
  · rintro s rfl
    exact ⟨[], delivery_init hlimit scheduler⟩
  · intro s a t hinv hstep
    obtain ⟨xs, hinv⟩ := hinv
    obtain ⟨ys, hinv', _⟩ := hinv.step hstep
    exact ⟨ys, hinv'⟩

/-- **Delivery is exactly once.** Every connection handed to the scheduler is popped by exactly one
worker or still queued; no insert is refused, no pop finds the queue empty, and no section gets
stuck. -/
theorem exactly_once_delivery {limit : Nat} (hlimit : 1 ≤ limit) (scheduler : Scheduler)
    {s : Server n} (h : (serverSystem n limit scheduler).Reachable s) :
    s.mem.refused = 0 ∧ s.nullPops = 0 ∧ s.mem.queue.size ≤ limit ∧
      (∃ xs, IsQueue s.mem xs ∧ s.handed.Perm (s.popped ++ requests xs) ∧
        (scheduler = .FIFO → s.handed = s.popped ++ requests xs)) ∧
      (∀ conn, s.main = .arrived conn ∨ s.main = .woken conn →
        ∃ choice t, serverNext scheduler s (.main choice) = some t) ∧
      (∀ i, s.worker i = .idle ∨ s.worker i = .woken →
        ∃ t, serverNext scheduler s (.worker i) = some t) := by
  obtain ⟨xs, hinv⟩ := delivery_reachable hlimit scheduler h
  have hsize : s.mem.queue.size ≤ limit := by
    rw [hinv.isQueue.size, ← hinv.limit]
    exact hinv.isQueue.size_le
  refine ⟨hinv.refused, hinv.nullPops, hsize,
    ⟨xs, hinv.isQueue, hinv.conserved, hinv.inOrder⟩, ?_, ?_⟩
  · intro conn hmain
    have hnext : ∀ choice, serverNext scheduler s (.main choice) =
        mainSection scheduler s conn choice := by
      rcases hmain with hmain | hmain <;> simp [serverNext, hmain]
    cases hfull : isFull s.mem with
    | true => exact ⟨none, _, by rw [hnext, mainSection, if_pos hfull]; rfl⟩
    | false =>
      obtain ⟨choice, worker, hsignal⟩ :=
        CondVar.exists_signal WorkerPc.isWaiting (fun _ => .woken) s.worker
      obtain ⟨m', ys, heq, _⟩ := hinv.mainSection hfull conn choice
      have hsignal' : signalSleep s.worker choice = some worker := hsignal
      rw [hsignal', Option.map_some] at heq
      exact ⟨choice, _, (hnext choice).trans heq⟩
  · intro i hworker
    have hnext : serverNext scheduler s (.worker i) = workerSection s i := by
      rcases hworker with hworker | hworker <;> simp [serverNext, hworker]
    by_cases hne : xs = []
    · have hempty : isEmpty s.mem = true := (isEmpty_iff hinv.isQueue).mpr hne
      exact ⟨_, by rw [hnext, workerSection, if_pos hempty]⟩
    · obtain ⟨a, t, ys, heq, _⟩ := hinv.workerSection hne i
      exact ⟨t, hnext.trans heq⟩

/-- A run in which a worker waits, is woken for a connection and pops it. -/
def oneConnectionRun : List (ServerStep 1) :=
  [.worker 0, .arrive connectionInit, .main (some 0), .worker 0]

theorem exactly_once_delivery_oneConnection :
    ∃ s : Server 1, (serverSystem 1 (1 : Nat) .SFF).Reachable s ∧
      s.popped = [connectionInit.request] ∧
      s.mem.refused = 0 ∧ s.nullPops = 0 ∧ s.mem.queue.size ≤ 1 := by
  have hsome : (oneConnectionRun.foldlM (serverNext .SFF) (Server.init 1 (1 : Nat))).isSome := by
    decide
  have hrun : (serverSystem 1 (1 : Nat) .SFF).Reachable (Option.get _ hsome) :=
    ⟨_, oneConnectionRun, rfl, Lts.run_ofFun.mpr (Option.some_get hsome).symm⟩
  obtain ⟨hrefused, hnull, hsize, _⟩ := exactly_once_delivery (Nat.le_refl 1) .SFF hrun
  exact ⟨_, hrun, rfl, hrefused, hnull, hsize⟩

end OsLab.Web
