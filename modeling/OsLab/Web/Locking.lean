import OsLab.Lib.Mutex
import OsLab.Web.Server

/-!
# The web server's lock

The same threads, one call at a time: locking, unlocking, waiting, signalling and each queue
operation are steps of their own. `pthread_mutex_unlock` by a thread that does not hold the lock
releases it; `worker_thread` makes such a call behind every request that it has handled.

* **`MainCall`**, **`WorkerCall`**, **`lockNext`**, **`lockSystem`** -- the calls in their order, as
  a transition system.
* **`LockState.Inside`**, **`Disciplined`** -- a thread between acquiring and releasing, and the
  discipline of a run.
* **`lockNext_effect`**, **`held_of_run`** -- every call but a second unlock treats the lock as a
  lock, so whoever is inside holds it.
* **`disciplined_iff`** -- a run is disciplined exactly when no worker makes its second unlock in
  it.
-/

namespace OsLab.Web

/-- The call `main` makes next. -/
inductive MainCall where
  | accept
  | lock (conn : Connection)
  | isFull (conn : Connection)
  | condWait (conn : Connection)
  | asleep (conn : Connection)
  | relock (conn : Connection)
  | schedAlgo (conn : Connection)
  | condSignal
  | unlock

/-- The call a worker makes next. -/
inductive WorkerCall where
  | lock
  | isEmpty
  | condWait
  | asleep
  | relock
  | isFull
  | condSignal
  | pop
  | unlock (request : Addr)
  | requestHandle (request : Addr)
  -- the second unlock, after close_or_die
  | unlockAgain
  deriving DecidableEq

inductive Thread (n : Nat) where
  | main
  | worker (i : Fin n)
  deriving DecidableEq

structure LockState (n : Nat) where
  mem : Mem
  owner : Option (Thread n)
  main : MainCall
  worker : Fin n → WorkerCall

inductive LockLabel (n : Nat) where
  | accept (conn : Connection)
  | main
  | signalSleep (choice : Option (Fin n))
  | worker (i : Fin n)
  | spuriousMain
  | spuriousWorker (i : Fin n)

variable {n : Nat}

def WorkerCall.isAsleep : WorkerCall → Bool
  | .asleep => true
  | _ => false

def mainCall (scheduler : Scheduler) (s : LockState n) : Option (LockState n) :=
  match s.main with
  | .lock conn | .relock conn =>
    if s.owner = none then
      some { s with owner := some .main, main := .isFull conn }
    else
      none
  | .isFull conn =>
    some { s with main := if isFull s.mem then .condWait conn else .schedAlgo conn }
  | .condWait conn => some { s with owner := none, main := .asleep conn }
  | .schedAlgo conn => do
    let m ← schedAlgo scheduler s.mem conn
    return { s with mem := m, main := .condSignal }
  | .unlock => some { s with owner := none, main := .accept }
  | .accept | .asleep _ | .condSignal => none

def setWorker (s : LockState n) (i : Fin n) (call : WorkerCall) : LockState n :=
  { s with worker := Function.update s.worker i call }

def workerCall (s : LockState n) (i : Fin n) : Option (LockState n) :=
  match s.worker i with
  | .lock | .relock =>
    if s.owner = none then
      some (setWorker { s with owner := some (.worker i) } i .isEmpty)
    else
      none
  | .isEmpty => some (setWorker s i (if isEmpty s.mem then .condWait else .isFull))
  | .condWait => some (setWorker { s with owner := none } i .asleep)
  | .isFull => some (setWorker s i (if isFull s.mem then .pop else .condSignal))
  | .condSignal =>
    let main := match s.main with
      | .asleep conn => .relock conn
      | main => main
    some (setWorker { s with main := main } i .pop)
  | .pop => do
    let (request, m) ← pop s.mem
    let request ← request
    return setWorker { s with mem := m } i (.unlock request)
  | .unlock request => some (setWorker { s with owner := none } i (.requestHandle request))
  | .requestHandle _ => some (setWorker s i .unlockAgain)
  | .unlockAgain => some (setWorker { s with owner := none } i .lock)
  | .asleep => none

def lockNext (scheduler : Scheduler) (s : LockState n) : LockLabel n → Option (LockState n)
  | .accept conn =>
    match s.main with
    | .accept => some { s with main := .lock conn }
    | _ => none
  | .main => mainCall scheduler s
  | .signalSleep choice =>
    match s.main with
    | .condSignal => do
      let worker ← CondVar.signal WorkerCall.isAsleep (fun _ => .relock) s.worker choice
      return { s with main := .unlock, worker := worker }
    | _ => none
  | .worker i => workerCall s i
  | .spuriousMain =>
    match s.main with
    | .asleep conn => some { s with main := .relock conn }
    | _ => none
  | .spuriousWorker i =>
    match s.worker i with
    | .asleep => some (setWorker s i .relock)
    | _ => none

def LockState.init (n : Nat) (limit : Int) : LockState n where
  mem := connectionQueueInit limit
  owner := none
  main := .accept
  worker _ := .lock

def lockSystem (n : Nat) (limit : Int) (scheduler : Scheduler) :
    Lts (LockState n) (LockLabel n) :=
  .ofFun (· = .init n limit) (lockNext scheduler)

/-! ## Who is inside -/

def MainCall.inside : MainCall → Bool
  | .isFull _ | .condWait _ | .schedAlgo _ | .condSignal | .unlock => true
  | .accept | .lock _ | .asleep _ | .relock _ => false

def WorkerCall.inside : WorkerCall → Bool
  | .isEmpty | .condWait | .isFull | .condSignal | .pop | .unlock _ => true
  | .lock | .asleep | .relock | .requestHandle _ | .unlockAgain => false

/-- The thread is between acquiring the lock and releasing it. -/
def LockState.Inside (s : LockState n) : Thread n → Prop
  | .main => s.main.inside = true
  | .worker i => (s.worker i).inside = true

/-- The thread whose call to `pthread_mutex_unlock` the step is. -/
def unlocking (s : LockState n) : LockLabel n → Option (Thread n)
  | .main =>
    match s.main with
    | .unlock => some .main
    | _ => none
  | .worker i =>
    match s.worker i with
    | .unlock _ | .unlockAgain => some (.worker i)
    | _ => none
  | _ => none

/-- The step is no unlock, or an unlock by the thread that holds the lock. -/
def UnlockByOwner (s : LockState n) (a : LockLabel n) : Prop :=
  ∀ thread, unlocking s a = some thread → s.owner = some thread

def AtMostOneInside (s : LockState n) : Prop :=
  ∀ thread thread', s.Inside thread → s.Inside thread' → thread = thread'

/-- The step is not a worker's second unlock. -/
def NotUnlockAgain (s : LockState n) (a : LockLabel n) : Prop :=
  ∀ i, a = .worker i → s.worker i ≠ .unlockAgain

/-- The lock discipline of a run: each unlock is the holder's, and in no state of the run are
two threads inside. -/
def Disciplined (limit : Int) (scheduler : Scheduler) (as : List (LockLabel n))
    (t : LockState n) : Prop :=
  ((lockSystem n limit scheduler).restrict fun s a => UnlockByOwner s a ∧ AtMostOneInside s).Run
    (.init n limit) as t ∧ AtMostOneInside t

/-! ## The invariant -/

section Effects

variable {scheduler : Scheduler} {s t : LockState n}

@[simp] theorem setWorker_inside_self (s : LockState n) (i : Fin n) (call : WorkerCall) :
    (setWorker s i call).Inside (.worker i) ↔ call.inside = true := by
  simp [setWorker, LockState.Inside]

theorem setWorker_inside_other {i : Fin n} {call : WorkerCall} {thread : Thread n}
    (h : thread ≠ .worker i) : (setWorker s i call).Inside thread ↔ s.Inside thread := by
  cases thread with
  | main => rfl
  | worker j =>
    have hij : j ≠ i := fun heq => h (heq ▸ rfl)
    simp [setWorker, LockState.Inside, hij]

/-- What a step of `thread` does to the lock, the other threads staying inside or outside. -/
def LockEffect (s t : LockState n) (thread : Thread n) : Prop :=
  (∀ j, j ≠ thread → (t.Inside j ↔ s.Inside j)) ∧
    Mutex.Step s.owner s.Inside thread t.owner t.Inside

/-- A step of `main` moves no worker. -/
theorem main_inside_other (hworker : t.worker = s.worker) (thread : Thread n)
    (h : thread ≠ .main) : t.Inside thread ↔ s.Inside thread := by
  cases thread with
  | main => exact absurd rfl h
  | worker i => simp [LockState.Inside, hworker]

/-- The calls of `main` treat the lock as a lock. -/
theorem mainCall_effect (hstep : mainCall scheduler s = some t) : LockEffect s t .main := by
  cases hmain : s.main <;> simp only [mainCall, hmain, reduceCtorEq] at hstep
  case lock conn | relock conn =>
    rw [Option.ite_none_right_eq_some] at hstep
    obtain ⟨hfree, hstep⟩ := hstep
    cases hstep
    exact ⟨main_inside_other rfl, .acquire hfree rfl rfl⟩
  case isFull conn =>
    cases hstep
    refine ⟨main_inside_other rfl, .keep rfl ?_⟩
    cases isFull s.mem <;> simp [LockState.Inside, hmain, MainCall.inside]
  case condWait conn =>
    cases hstep
    exact ⟨main_inside_other rfl, .release (by simp [LockState.Inside, hmain, MainCall.inside]) rfl
      (by simp [LockState.Inside, MainCall.inside])⟩
  case schedAlgo conn =>
    obtain ⟨m, -, hstep⟩ := Option.bind_eq_some_iff.mp hstep
    cases hstep
    refine ⟨main_inside_other rfl, .keep rfl ?_⟩
    simp [LockState.Inside, hmain, MainCall.inside]
  case unlock =>
    cases hstep
    exact ⟨main_inside_other rfl, .release (by simp [LockState.Inside, hmain, MainCall.inside]) rfl
      (by simp [LockState.Inside, MainCall.inside])⟩

/-- A signal leaves the lock alone, and wakes a worker to relock. -/
theorem signalSleep_effect {choice : Option (Fin n)}
    (hstep : lockNext scheduler s (.signalSleep choice) = some t) : LockEffect s t .main := by
  cases hmain : s.main <;> simp only [lockNext, hmain, reduceCtorEq] at hstep
  obtain ⟨worker, hsignal, hstep⟩ := Option.bind_eq_some_iff.mp hstep
  cases hstep
  refine ⟨fun thread hne => ?_, .keep rfl ?_⟩
  · -- the worker that wakes up is outside before and after
    cases thread with
    | main => exact absurd rfl hne
    | worker j =>
      cases choice with
      | none =>
        obtain ⟨-, rfl⟩ := CondVar.signal_none.mp hsignal
        rfl
      | some i =>
        obtain ⟨hasleep, rfl⟩ := CondVar.signal_some.mp hsignal
        by_cases hij : j = i
        · subst hij
          cases hworker : s.worker j <;> simp [hworker, WorkerCall.isAsleep] at hasleep
          simp [LockState.Inside, hworker, WorkerCall.inside]
        · simp [LockState.Inside, hij]
  · simp [LockState.Inside, hmain, MainCall.inside]

/-- So do the calls of a worker, its second unlock apart. -/
theorem workerCall_effect {i : Fin n} (hfirst : s.worker i ≠ .unlockAgain)
    (hstep : workerCall s i = some t) : LockEffect s t (.worker i) := by
  have hother : ∀ {u : LockState n} {call : WorkerCall},
      (∀ thread, u.Inside thread ↔ s.Inside thread) →
      ∀ j, j ≠ .worker i → ((setWorker u i call).Inside j ↔ s.Inside j) :=
    fun hu j hj => (setWorker_inside_other hj).trans (hu j)
  cases hworker : s.worker i <;> simp only [workerCall, hworker, reduceCtorEq] at hstep
  -- Two points take the lock, two give it back, and all others leave it.
  case lock | relock =>
    rw [Option.ite_none_right_eq_some] at hstep
    obtain ⟨hfree, hstep⟩ := hstep
    cases hstep
    exact ⟨hother fun _ => Iff.rfl, .acquire hfree rfl (by simp [WorkerCall.inside])⟩
  case isEmpty =>
    cases hstep
    refine ⟨hother fun _ => Iff.rfl, .keep rfl ?_⟩
    cases isEmpty s.mem <;> simp [LockState.Inside, setWorker, hworker, WorkerCall.inside]
  case condWait =>
    cases hstep
    exact ⟨hother fun _ => Iff.rfl, .release
      (by simp [LockState.Inside, hworker, WorkerCall.inside]) rfl (by simp [WorkerCall.inside])⟩
  case isFull =>
    cases hstep
    refine ⟨hother fun _ => Iff.rfl, .keep rfl ?_⟩
    cases isFull s.mem <;> simp [LockState.Inside, setWorker, hworker, WorkerCall.inside]
  case condSignal =>
    cases hstep
    refine ⟨hother fun thread => ?_, .keep rfl ?_⟩
    · -- a thread that is woken still has to take the lock
      cases thread with
      | worker j => rfl
      | main => cases hmain : s.main <;> simp [LockState.Inside, hmain, MainCall.inside]
    · simp [LockState.Inside, setWorker, hworker, WorkerCall.inside]
  case pop =>
    obtain ⟨⟨request, m⟩, -, hstep⟩ := Option.bind_eq_some_iff.mp hstep
    obtain ⟨a, -, hstep⟩ := Option.bind_eq_some_iff.mp hstep
    cases hstep
    refine ⟨hother fun thread => ?_, .keep rfl ?_⟩
    · cases thread <;> rfl
    · simp [LockState.Inside, setWorker, hworker, WorkerCall.inside]
  case unlock request =>
    cases hstep
    exact ⟨hother fun _ => Iff.rfl, .release
      (by simp [LockState.Inside, hworker, WorkerCall.inside]) rfl (by simp [WorkerCall.inside])⟩
  case requestHandle request =>
    cases hstep
    refine ⟨hother fun _ => Iff.rfl, .keep rfl ?_⟩
    simp [LockState.Inside, setWorker, hworker, WorkerCall.inside]
  case unlockAgain => exact absurd hworker hfirst

/-- Every step but a second unlock treats the lock as a lock. -/
theorem lockNext_effect {a : LockLabel n} (hfirst : NotUnlockAgain s a)
    (hstep : lockNext scheduler s a = some t) : ∃ thread, LockEffect s t thread := by
  cases a with
  | accept conn =>
    cases hmain : s.main <;> simp only [lockNext, hmain, reduceCtorEq] at hstep
    cases hstep
    refine ⟨.main, main_inside_other rfl, .keep rfl ?_⟩
    simp [LockState.Inside, hmain, MainCall.inside]
  | main => exact ⟨.main, mainCall_effect hstep⟩
  | signalSleep choice => exact ⟨.main, signalSleep_effect hstep⟩
  | worker i => exact ⟨.worker i, workerCall_effect (hfirst i rfl) hstep⟩
  | spuriousMain =>
    cases hmain : s.main <;> simp only [lockNext, hmain, reduceCtorEq] at hstep
    cases hstep
    refine ⟨.main, main_inside_other rfl, .keep rfl ?_⟩
    simp [LockState.Inside, hmain, MainCall.inside]
  | spuriousWorker i =>
    cases hworker : s.worker i <;> simp only [lockNext, hworker, reduceCtorEq] at hstep
    cases hstep
    refine ⟨.worker i, fun j hj => setWorker_inside_other hj, .keep rfl ?_⟩
    simp [LockState.Inside, setWorker, hworker, WorkerCall.inside]

end Effects

theorem held_init (n : Nat) (limit : Int) :
    Mutex.Held (LockState.init n limit).owner (LockState.init n limit).Inside := by
  intro thread
  cases thread <;> simp [LockState.init, LockState.Inside, MainCall.inside, WorkerCall.inside]

/-- Without second unlocks the thread inside is the owner of the lock. -/
theorem held_of_run {limit : Int} {scheduler : Scheduler} {as : List (LockLabel n)}
    {t : LockState n} (h : ((lockSystem n limit scheduler).restrict NotUnlockAgain).Run
      (.init n limit) as t) : Mutex.Held t.owner t.Inside := by
  have hstep : ∀ s a t, Mutex.Held s.owner s.Inside →
      ((lockSystem n limit scheduler).restrict NotUnlockAgain).step s a t →
      Mutex.Held t.owner t.Inside := by
    rintro s a t hheld ⟨hfirst, hstep⟩
    obtain ⟨thread, hother, hlock⟩ := lockNext_effect hfirst hstep
    exact hheld.step hother hlock
  exact h.invariant hstep (held_init n limit)

theorem unlockByOwner_of_held {s : LockState n} {a : LockLabel n}
    (hheld : Mutex.Held s.owner s.Inside) (hfirst : NotUnlockAgain s a) : UnlockByOwner s a := by
  intro thread hunlock
  apply (hheld thread).mp
  cases a with
  | main =>
    cases hmain : s.main <;> simp [unlocking, hmain] at hunlock
    subst hunlock
    simp [LockState.Inside, hmain, MainCall.inside]
  | worker i =>
    cases hworker : s.worker i <;> simp [unlocking, hworker] at hunlock
    · subst hunlock
      simp [LockState.Inside, hworker, WorkerCall.inside]
    · exact absurd hworker (hfirst i rfl)
  | _ => cases hunlock

/-- A second unlock is never by the thread that holds the lock. -/
theorem notUnlockAgain_of_held {s : LockState n} {a : LockLabel n}
    (hheld : Mutex.Held s.owner s.Inside) (hunlock : UnlockByOwner s a) : NotUnlockAgain s a := by
  rintro i rfl hagain
  have howner : s.owner = some (.worker i) := hunlock _ (by simp [unlocking, hagain])
  have hinside := (hheld (.worker i)).mpr howner
  simp [LockState.Inside, hagain, WorkerCall.inside] at hinside

/-- **When the lock is kept.** A run keeps the lock discipline exactly when no worker makes its
second unlock in it. -/
theorem disciplined_iff {limit : Int} {scheduler : Scheduler} {as : List (LockLabel n)}
    {t : LockState n} : Disciplined limit scheduler as t ↔
      ((lockSystem n limit scheduler).restrict NotUnlockAgain).Run (.init n limit) as t := by
  constructor
  · rintro ⟨hrun, -⟩
    induction hrun with
    | nil => exact .nil
    | snoc _ last ih =>
      obtain ⟨⟨hunlock, -⟩, hstep⟩ := last
      exact .snoc ih ⟨notUnlockAgain_of_held (held_of_run ih) hunlock, hstep⟩
  · intro hrun
    refine ⟨?_, fun _ _ => (held_of_run hrun).atMostOne⟩
    induction hrun with
    | nil => exact .nil
    | snoc hrun last ih =>
      have hheld := held_of_run hrun
      exact .snoc ih ⟨⟨unlockByOwner_of_held hheld last.1, fun _ _ => hheld.atMostOne⟩, last.2⟩

/-- The worker has handled a request when `main` takes the lock for the next connection; its
second unlock lets it take the lock as well. -/
def unlockAgainRun (conn : Connection) : List (LockLabel 1) :=
  [.accept conn, .main, .main, .main, .signalSleep none, .main] ++
    List.replicate 7 (.worker (Fin.last 0)) ++
    [.accept conn, .main, .worker (Fin.last 0), .worker (Fin.last 0)]

theorem unlockAgain_two_inside :
    ¬ ∀ as t, (lockSystem 1 10 .FIFO).Run (.init 1 10) as t → Disciplined 10 .FIFO as t := by
  intro hall
  have hsome : ((unlockAgainRun connectionInit).foldlM (lockNext .FIFO)
      (LockState.init 1 10)).isSome := by decide
  obtain ⟨-, hone⟩ := hall (unlockAgainRun connectionInit) (Option.get _ hsome)
    (Lts.run_ofFun.mpr (Option.some_get hsome).symm)
  have heq : Thread.main = Thread.worker 0 := hone _ _ rfl rfl
  cases heq

end OsLab.Web
