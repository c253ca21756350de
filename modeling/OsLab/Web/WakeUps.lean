import OsLab.Web.Server

/-!
# Lost wake-ups in the web server

A worker signals `full` only when the queue is not full before its own pop. With room for two
connections the next worker finds the queue not full and signals; with room for one it finds the
queue empty and goes to sleep without a signal.

* **`LostWakeUp`**, **`signalledSystem`** -- what is to be avoided, in runs without spurious
  wake-ups.
* **`Awake`**, **`Awake.step`**, **`Awake.not_lostWakeUp`** -- the invariant that excludes it from
  room for two on.
* **`lostWakeUpRun`**, **`exists_lostWakeUp`** -- and the run that leads to it with room for one.
* **`no_lostWakeUp_iff`** -- so room for two is the exact condition.
-/

namespace OsLab.Web

variable {n : Nat}

/-- `main` waits for room that is there, or a connection waits, and nobody is about to wake. -/
def LostWakeUp (s : Server n) : Prop :=
  ((∃ conn, s.main = .waiting conn) ∧ isFull s.mem = false ∧ ∀ i, s.worker i = .waiting) ∨
    (isEmpty s.mem = false ∧ ∀ i, s.worker i = .waiting)

/-- Steps other than spurious wake-ups. -/
def ServerStep.Signalled : ServerStep n → Prop
  | .spuriousMain | .spuriousWorker _ => False
  | _ => True

/-- The server without spurious wake-ups. -/
def signalledSystem (n : Nat) (limit : Int) (scheduler : Scheduler) :
    Lts (Server n) (ServerStep n) :=
  (serverSystem n limit scheduler).restrict fun _ a => a.Signalled

/-! ## Room for two -/

/-- `main` sleeps only behind a queue that is full but for one place, and somebody is awake
while a connection waits. -/
structure Awake (limit : Nat) (s : Server n) : Prop where
  main : ∀ conn, s.main = .waiting conn → limit ≤ s.mem.queue.size + 1
  worker : s.mem.queue.size ≠ 0 → ∃ i, (s.worker i).isWaiting = false

theorem signalFull_ne_waiting (main : MainPc) (conn : Connection) :
    signalFull main ≠ .waiting conn := by
  cases main <;> simp [signalFull]

theorem exists_update_awake (worker : Fin n → WorkerPc) (i : Fin n) {pc : WorkerPc}
    (hpc : pc.isWaiting = false) : ∃ j, (Function.update worker i pc j).isWaiting = false :=
  ⟨i, by simp [hpc]⟩

/-- Every effect of a step keeps somebody awake. -/
theorem Awake.step (hn : 0 < n) {limit : Nat} {scheduler : Scheduler} {s t : Server n}
    {xs ys : List (Addr × Connection)} (hs : Delivery limit scheduler s xs)
    (ht : Delivery limit scheduler t ys) (h : Awake limit s) (heffect : Effect s xs t ys) :
    Awake limit t := by
  have hsizeS := hs.isQueue.size
  have hsizeT := ht.isQueue.size
  cases heffect with
  | arrived conn main worker queue =>
    subst queue
    exact ⟨by simp [main], by simpa [hsizeT, worker, ← hsizeS] using h.worker⟩
  | mainWaits conn full main worker queue =>
    subst queue
    have hfull := (isFull_iff hs.isQueue).mp full
    rw [hs.limit] at hfull
    refine ⟨fun conn' _ => by omega, ?_⟩
    simpa [hsizeT, worker, ← hsizeS] using h.worker
  | enqueued choice main worker queue =>
    have : Nonempty (Fin n) := ⟨⟨0, hn⟩⟩
    exact ⟨by simp [main], fun _ => CondVar.exists_not_waiting (fun _ => rfl) worker⟩
  | workerWaits i empty main worker queue =>
    subst queue empty
    refine ⟨fun conn hmain => ?_, fun hne => absurd hsizeT hne⟩
    rw [main] at hmain
    have := h.main conn hmain
    rw [hsizeS] at this
    rwa [hsizeT]
  | popped i a main worker queue =>
    refine ⟨fun conn hmain => ?_, fun _ => worker ▸ exists_update_awake s.worker i rfl⟩
    -- a worker that does not signal has found the queue full
    cases hfull : isFull s.mem with
    | true =>
      have hlen := (isFull_iff hs.isQueue).mp hfull
      rw [hs.limit] at hlen
      omega
    | false =>
      rw [main, if_neg (by simp [hfull])] at hmain
      exact absurd hmain (signalFull_ne_waiting s.main conn)
  | finished i main worker queue =>
    subst queue
    refine ⟨fun conn hmain => ?_, fun _ => worker ▸ exists_update_awake s.worker i rfl⟩
    rw [hsizeT, ← hsizeS]
    exact h.main conn (main ▸ hmain)
  | mainWoken conn main worker queue =>
    subst queue
    exact ⟨by simp [main], by simpa [hsizeT, worker, ← hsizeS] using h.worker⟩
  | workerWoken i main worker queue =>
    subst queue
    refine ⟨fun conn hmain => ?_, fun _ => worker ▸ exists_update_awake s.worker i rfl⟩
    rw [hsizeT, ← hsizeS]
    exact h.main conn (main ▸ hmain)

/-- So somebody is awake in every reachable state. -/
theorem awake_reachable (hn : 0 < n) {limit : Nat} (hlimit : 1 ≤ limit) (scheduler : Scheduler)
    {s : Server n} (h : (serverSystem n limit scheduler).Reachable s) : Awake limit s := by
  have hinv : ∃ xs, Delivery limit scheduler s xs ∧ Awake limit s := by
    apply h.invariant
    · rintro s rfl
      refine ⟨[], delivery_init hlimit scheduler, ?_, ?_⟩
      · simp [Server.init]
      · simp [Server.init, connectionQueueInit]
    · intro s a t hs hstep
      obtain ⟨xs, hdelivery, hawake⟩ := hs
      obtain ⟨ys, hdelivery', heffect⟩ := hdelivery.step hstep
      exact ⟨ys, hdelivery', hawake.step hn hdelivery hdelivery' heffect⟩
  obtain ⟨_, _, hawake⟩ := hinv
  exact hawake

/-- With room for two connections that is enough. -/
theorem Awake.not_lostWakeUp {limit : Nat} (hlimit : 2 ≤ limit) {s : Server n}
    (h : Awake limit s) : ¬ LostWakeUp s := by
  have hworker : s.mem.queue.size ≠ 0 → ¬ ∀ i, s.worker i = .waiting := by
    intro hne hall
    obtain ⟨i, hi⟩ := h.worker hne
    rw [hall i] at hi
    cases hi
  rintro (⟨⟨conn, hmain⟩, _, hall⟩ | ⟨hempty, hall⟩)
  · have := h.main conn hmain
    exact hworker (by omega) hall
  · exact hworker (by simpa [isEmpty] using hempty) hall

/-! ## Room for one -/

/-- The first `k` workers have found the empty queue and sleep. -/
def asleep (n : Nat) (limit : Int) (k : Nat) : Server n :=
  { Server.init n limit with worker := fun i => if i.val < k then .waiting else .idle }

theorem asleep_step (limit : Int) (scheduler : Scheduler) {k : Nat} (hk : k < n) :
    serverNext scheduler (asleep n limit k) (.worker ⟨k, hk⟩) = some (asleep n limit (k + 1)) := by
  have hidle : (asleep n limit k).worker ⟨k, hk⟩ = .idle := by simp [asleep]
  have hempty : isEmpty (asleep n limit k).mem = true := rfl
  have hworker : Function.update (asleep n limit k).worker ⟨k, hk⟩ .waiting =
      (asleep n limit (k + 1)).worker := by
    funext i
    by_cases hi : i = ⟨k, hk⟩
    · simp [hi, asleep]
    · have hne : i.val ≠ k := fun h => hi (Fin.ext h)
      have hlt : i.val < k ↔ i.val < k + 1 := by omega
      simp [hi, asleep, hlt]
  simp only [serverNext, hidle, workerSection, hempty, if_true, hworker]
  rfl

/-- All workers can go to sleep before the first connection comes. -/
theorem asleep_run (limit : Int) (scheduler : Scheduler) :
    ∀ k ≤ n, ∃ as, (signalledSystem n limit scheduler).Run (Server.init n limit) as
      (asleep n limit k) := by
  intro k hk
  induction k with
  | zero => exact ⟨[], .nil⟩
  | succ k ih =>
    obtain ⟨as, hrun⟩ := ih (Nat.le_of_succ_le hk)
    have hsignalled : (ServerStep.worker (⟨k, hk⟩ : Fin n)).Signalled := trivial
    have hstep := asleep_step limit scheduler hk
    exact ⟨_, .snoc hrun ⟨hsignalled, hstep⟩⟩

/-- One worker is woken for the first connection; while it takes it, `main` waits for room for
the second one, and is not signalled. -/
def lostWakeUpRun (conn : Connection) (i : Fin n) : List (ServerStep n) :=
  [.arrive conn, .main (some i), .arrive conn, .main none, .worker i, .finish i, .worker i]

/-- From there the run ends with `main` waiting for room that is there. -/
theorem lostWakeUpRun_spec (scheduler : Scheduler) (conn : Connection) (hn : 0 < n) :
    ∃ t, (signalledSystem n 1 scheduler).Run (asleep n 1 n) (lostWakeUpRun conn ⟨0, hn⟩) t ∧
      LostWakeUp t := by
  have hasleep : asleep n 1 n = { Server.init n 1 with worker := fun _ => .waiting } := by
    simp [asleep]
  have hrun : ∃ t, (lostWakeUpRun conn ⟨0, hn⟩).foldlM (serverNext scheduler)
      { Server.init n 1 with worker := fun _ => .waiting } = some t ∧ LostWakeUp t := by
    cases scheduler
    · refine ⟨_, rfl, Or.inl ⟨⟨conn, rfl⟩, rfl, fun i => ?_⟩⟩
      by_cases hi : i = ⟨0, hn⟩ <;> simp [hi, Function.update]
    · refine ⟨_, rfl, Or.inl ⟨⟨conn, rfl⟩, rfl, fun i => ?_⟩⟩
      by_cases hi : i = ⟨0, hn⟩ <;> simp [hi, Function.update]
  obtain ⟨t, hfold, hlost⟩ := hrun
  refine ⟨t, Lts.Run.restrict (Lts.run_ofFun.mpr (hasleep ▸ hfold)) ?_, hlost⟩
  simp [lostWakeUpRun, ServerStep.Signalled]

/-- So with room for one connection a wake-up can be lost, with any number of workers. -/
theorem exists_lostWakeUp (scheduler : Scheduler) (hn : 0 < n) :
    ∃ t, (signalledSystem n 1 scheduler).Reachable t ∧ LostWakeUp t := by
  obtain ⟨as, hsleep⟩ := asleep_run 1 scheduler n (Nat.le_refl n)
  obtain ⟨t, hrun, hlost⟩ := lostWakeUpRun_spec scheduler connectionInit hn
  exact ⟨t, ⟨_, _, rfl, hsleep.append hrun⟩, hlost⟩

/-- **When no wake-up is lost.** Exactly when the queue has room for two connections. -/
theorem no_lostWakeUp_iff (hn : 0 < n) {limit : Nat} (hlimit : 1 ≤ limit)
    (scheduler : Scheduler) :
    (∀ s, (signalledSystem n limit scheduler).Reachable s → ¬ LostWakeUp s) ↔ 2 ≤ limit := by
  constructor
  · intro hsafe
    by_contra htwo
    obtain rfl : limit = 1 := by omega
    obtain ⟨t, hreach, hlost⟩ := exists_lostWakeUp scheduler hn
    exact hsafe t hreach hlost
  · intro htwo s hreach
    exact (awake_reachable hn hlimit scheduler hreach.of_restrict).not_lostWakeUp htwo

theorem no_lostWakeUp_oneWorker :
    (∀ s, (signalledSystem 1 (2 : Nat) .FIFO).Reachable s → ¬ LostWakeUp s) ↔ 2 ≤ 2 :=
  no_lostWakeUp_iff (by decide) (by decide) .FIFO

/-- With one worker and room for one connection, both threads end up asleep. -/
theorem lostWakeUp_oneWorker :
    ¬ ∀ s, (signalledSystem 1 (1 : Nat) .FIFO).Reachable s → ¬ LostWakeUp s := by
  intro hsafe
  obtain ⟨t, hreach, hlost⟩ := exists_lostWakeUp (n := 1) .FIFO Nat.one_pos
  exact hsafe t hreach hlost

end OsLab.Web
