import Mathlib.Data.Int.Order.Basic
import OsLab.Lib.RearSelection
import OsLab.Lib.Lts
import OsLab.Web.Queue

/-!
# The web server's schedulers

`FIFO`, `SFF` and the sort `SFF` calls. `minIndex` rotates the queue once and leaves it as it was;
`insertMinToRear` takes one request out and appends a fresh copy of it. What identifies a request
across these copies is its payload, so the results are about lists of payloads.

* **`minIndex`**, **`insertMinToRear`**, **`sortQueue`**, **`SFF`** -- the functions, with their
  loops over rounds.
* **`minIndexLoop_spec`**, **`insertMinToRear_spec`**, **`sortQueue_rounds`** -- what each of them
  leaves, on a queue that is well formed; each is an induction on the rounds to go.
* **`SFF_spec`** -- a call of `SFF` adds its request and leaves the queue ascending.
* **`sffSystem`**, **`SffInv`**, **`sff_smallest_first`** -- sequences of calls, their invariant,
  and what the next pop takes.
-/

namespace OsLab.Web

open RearSelection

/-- The loop of `minIndex` from round `i`, with `k` rounds to go. -/
def minIndexLoop (sortedIndex : Int) :
    (k i : Nat) → (min_index : Int) → (min_val : Int32) → Mem → Option (Int × Mem)
  | 0, _, min_index, _, m => some (min_index, m)
  | k + 1, i, min_index, min_val, m => do
    let (item, m) ← pop m
    let curr_node ← item
    let info ← m.info curr_node
    let (min_index, min_val) :=
      if info.filesize ≤ min_val ∧ (i : Int) ≤ sortedIndex then ((i : Int), info.filesize)
      else (min_index, min_val)
    let (_, m) ← insertConnection m (some curr_node)
    minIndexLoop sortedIndex k (i + 1) min_index min_val m

def minIndex (m : Mem) (sortedIndex : Int) : Option (Int × Mem) :=
  if sortedIndex < 0 then
    some (-1, m)
  else
    minIndexLoop sortedIndex m.queue.size 0 (-1) 2147483647 m

/-- The loop of `insertMinToRear` from round `i`, with `k` rounds to go. -/
def insertMinToRearLoop (min_index : Int) :
    (k i : Nat) → (last_node : Option Addr) → Mem → Option (Option Addr × Mem)
  | 0, _, last_node, m => some (last_node, m)
  | k + 1, i, last_node, m => do
    let (item, m) ← pop m
    let curr_node ← item
    if (i : Int) ≠ min_index then
      let (_, m) ← insertConnection m (some curr_node)
      insertMinToRearLoop min_index k (i + 1) last_node m
    else
      let info ← m.info curr_node
      let (last_node, m) := mallocNode m { copy connectionInit info with valid := 1 }
      insertMinToRearLoop min_index k (i + 1) (some last_node) m

def insertMinToRear (m : Mem) (min_index : Int) : Option Mem :=
  if min_index < 0 then
    some m
  else do
    let (last_node, m) ← insertMinToRearLoop min_index m.queue.size 0 none m
    -- last_node is uninitialised if no round set it
    let last_node ← last_node
    let (_, m) ← insertConnection m (some last_node)
    return m

/-- The loop of `sortQueue` from round `i`, with `k` rounds to go. -/
def sortQueueLoop (n : Nat) : (k i : Nat) → Mem → Option Mem
  | 0, _, m => some m
  | k + 1, i, m => do
    let (min_index, m) ← minIndex m ((n : Int) - i)
    let m ← insertMinToRear m min_index
    sortQueueLoop n k (i + 1) m

def sortQueue (m : Mem) : Option Mem := sortQueueLoop m.queue.size m.queue.size 1 m

def FIFO (m : Mem) (connection : Connection) : Option Mem := do
  let (new_node, m) := mallocNode m (copy connectionInit connection)
  let (_, m) ← insertConnection m (some new_node)
  return m

def SFF (m : Mem) (connection : Connection) : Option Mem := do
  let (new_node, m) := mallocNode m (copy connectionInit connection)
  let (_, m) ← insertConnection m (some new_node)
  if m.queue.size > 1 then
    sortQueue m
  else
    return m

/-! ## Payloads -/

/-- What a worker is asked to serve. -/
structure Request where
  fd : Int32
  filename : CString
  filesize : Int32
  dynamic : Int32
  cgiargs : CString
  deriving DecidableEq

def Connection.request (c : Connection) : Request :=
  ⟨c.fd, c.filename, c.filesize, c.dynamic, c.cgiargs⟩

def Request.key (r : Request) : Int := r.filesize.toInt

/-- The requests held by a queue's nodes, oldest first. -/
def requests (xs : List (Addr × Connection)) : List Request := xs.map fun x => x.2.request

@[simp] theorem requests_nil : requests [] = [] := rfl

@[simp] theorem requests_cons (x : Addr × Connection) (xs : List (Addr × Connection)) :
    requests (x :: xs) = x.2.request :: requests xs := rfl

@[simp] theorem requests_append (xs ys : List (Addr × Connection)) :
    requests (xs ++ ys) = requests xs ++ requests ys :=
  List.map_append

@[simp] theorem length_requests (xs : List (Addr × Connection)) :
    (requests xs).length = xs.length :=
  List.length_map _

/-- Ascending file size. -/
def Ascending (rs : List Request) : Prop := rs.Pairwise fun r r' => r.key ≤ r'.key

/-! ## minIndex -/

/-- What `min_index` and `min_val` hold after the rounds over `done`. -/
def ScanState (bound : Nat) (done : List Request) (min_index : Int) (min_val : Int32) : Prop :=
  (done = [] ∧ min_val = 2147483647) ∨
    ∃ j : Nat, min_index = j ∧ ∃ h : IsLastMin Request.key bound done j,
      min_val = (done.get ⟨j, h.lt_length⟩).filesize

theorem toInt_le_max (x : Int32) : x.toInt ≤ (2147483647 : Int32).toInt := by
  have h : x.toInt < 2 ^ 31 := x.toInt_lt
  have hmax : (2147483647 : Int32).toInt = 2147483647 := by decide
  omega

/-- A request that is not larger than the smallest so far, and may be chosen, takes its place. -/
theorem ScanState.take {bound : Nat} {done : List Request} {min_index : Int} {min_val : Int32}
    (h : ScanState bound done min_index min_val) {r : Request} (hle : r.filesize ≤ min_val)
    (hbound : done.length ≤ bound) :
    ScanState bound (done ++ [r]) (done.length : Int) r.filesize := by
  rcases h with ⟨rfl, rfl⟩ | ⟨j, rfl, hmin, rfl⟩
  · exact Or.inr ⟨0, rfl, isLastMin_singleton r, rfl⟩
  · refine Or.inr ⟨done.length, rfl, hmin.snoc_of_le hbound (Int32.le_iff_toInt_le.mp hle), ?_⟩
    simp

/-- Any other request is passed over. -/
theorem ScanState.skip {bound : Nat} {done : List Request} {min_index : Int} {min_val : Int32}
    (h : ScanState bound done min_index min_val) {r : Request}
    (hr : ¬ (r.filesize ≤ min_val ∧ (done.length : Int) ≤ bound)) :
    ScanState bound (done ++ [r]) min_index min_val := by
  rcases h with ⟨rfl, rfl⟩ | ⟨j, rfl, hmin, rfl⟩
  · -- no file size is above INT_MAX, so the first round takes its element
    have hle : r.filesize ≤ 2147483647 := Int32.le_iff_toInt_le.mpr (toInt_le_max _)
    exact absurd ⟨hle, Int.natCast_nonneg bound⟩ hr
  · have hmin' : IsLastMin Request.key bound (done ++ [r]) j := by
      apply hmin.snoc_of_not
      rintro ⟨hle, hbound⟩
      exact hr ⟨Int32.le_iff_toInt_le.mpr hle, Int.ofNat_le.mpr hbound⟩
    refine Or.inr ⟨j, rfl, hmin', ?_⟩
    simp [List.getElem_append_left hmin.lt_length]

/-- A whole rotation leaves the queue as it was and scans every request. -/
theorem minIndexLoop_spec {bound : Nat} (rest : List (Addr × Connection)) :
    ∀ {done : List (Addr × Connection)} {m : Mem} {min_index : Int} {min_val : Int32},
      IsQueue m (rest ++ done) → ScanState bound (requests done) min_index min_val →
      ∃ m' min_index' min_val',
        minIndexLoop bound rest.length done.length min_index min_val m = some (min_index', m') ∧
        IsQueue m' (done ++ rest) ∧ Frame m m' ∧
        ScanState bound (requests (done ++ rest)) min_index' min_val' := by
  induction rest with
  | nil =>
    intro done m min_index min_val hq hscan
    refine ⟨m, min_index, min_val, rfl, by simpa using hq, .refl m, by simpa using hscan⟩
  | cons x rest ih =>
    intro done m min_index min_val hq hscan
    obtain ⟨a, c⟩ := x
    rw [List.cons_append] at hq
    -- One round pops the front and inserts it again at the rear.
    obtain ⟨m₁, m₂, hpop, hinfo, hins, hq', hframe⟩ := rotate_one hq
    rw [List.append_assoc] at hq'
    have hsplit : done ++ (a, c) :: rest = done ++ [(a, c)] ++ rest := by simp
    have hlen : (requests done).length = done.length := length_requests done
    -- `<=`: an equal size takes over, so the last of the smallest wins.
    by_cases htake : c.filesize ≤ min_val ∧ (done.length : Int) ≤ bound
    · have hscan' : ScanState bound (requests (done ++ [(a, c)])) done.length c.filesize := by
        rw [requests_append, ← hlen]
        exact hscan.take htake.1 (by rw [hlen]; exact Int.ofNat_le.mp htake.2)
      obtain ⟨m', min_index', min_val', hloop, hq'', hframe', hscan''⟩ := ih hq' hscan'
      rw [hsplit]
      refine ⟨m', min_index', min_val', ?_, hq'', hframe.trans hframe', hscan''⟩
      rw [← hloop]
      simp [minIndexLoop, hpop, hinfo, hins, htake]
    · have hscan' : ScanState bound (requests (done ++ [(a, c)])) min_index min_val := by
        rw [requests_append]
        exact hscan.skip (by rw [hlen]; exact htake)
      obtain ⟨m', min_index', min_val', hloop, hq'', hframe', hscan''⟩ := ih hq' hscan'
      rw [hsplit]
      refine ⟨m', min_index', min_val', ?_, hq'', hframe.trans hframe', hscan''⟩
      rw [← hloop]
      simp only [minIndexLoop, List.length_cons, hpop, hinfo, hins, htake, if_false,
        Option.bind_eq_bind, Option.bind_some, List.length_append, List.length_nil, Nat.zero_add]

/-- `minIndex` returns the last minimal index up to `bound` and keeps the queue. -/
theorem minIndex_spec {m : Mem} {xs : List (Addr × Connection)} (h : IsQueue m xs) (hne : xs ≠ [])
    (bound : Nat) : ∃ (m' : Mem) (j : Nat), minIndex m bound = some ((j : Int), m') ∧
      IsQueue m' xs ∧ Frame m m' ∧ IsLastMin Request.key bound (requests xs) j := by
  have hscan : ScanState bound (requests []) (-1) 2147483647 := Or.inl ⟨rfl, rfl⟩
  obtain ⟨m', min_index, min_val, hloop, hq, hframe, hscan'⟩ :=
    minIndexLoop_spec xs (by simpa using h) hscan
  rcases hscan' with ⟨hnil, _⟩ | ⟨j, rfl, hmin, _⟩
  · exact absurd (by simpa [requests] using hnil) hne
  · refine ⟨m', j, ?_, hq, hframe, hmin⟩
    rw [minIndex, if_neg (Int.not_lt.mpr (Int.natCast_nonneg bound)), h.size]
    exact hloop

/-! ## insertMinToRear -/

/-- The rounds after the one that took the minimum out rotate the rest. -/
theorem insertMinToRearLoop_after {min_index : Int} (rest : List (Addr × Connection)) :
    ∀ {i : Nat} {done : List (Addr × Connection)} {m : Mem} {last_node : Option Addr},
      IsQueue m (rest ++ done) → min_index < i →
      ∃ m', insertMinToRearLoop min_index rest.length i last_node m = some (last_node, m') ∧
        IsQueue m' (done ++ rest) ∧ Frame m m' := by
  induction rest with
  | nil =>
    intro i done m last_node hq _
    exact ⟨m, rfl, by simpa using hq, .refl m⟩
  | cons x rest ih =>
    intro i done m last_node hq hi
    obtain ⟨a, c⟩ := x
    rw [List.cons_append] at hq
    obtain ⟨m₁, m₂, hpop, -, hins, hq', hframe⟩ := rotate_one hq
    rw [List.append_assoc] at hq'
    have hi' : min_index < ((i + 1 : Nat) : Int) := by omega
    obtain ⟨m', hloop, hq'', hframe'⟩ := @ih (i + 1) _ _ last_node hq' hi'
    have hne : (i : Int) ≠ min_index := by omega
    refine ⟨m', ?_, by simpa using hq'', hframe.trans hframe'⟩
    rw [← hloop]
    simp [insertMinToRearLoop, hpop, hins, hne]

/-- Up to the round that takes the minimum out, the queue is rotated. -/
theorem insertMinToRearLoop_before {min_index : Int} {a : Addr} {c : Connection}
    {suf : List (Addr × Connection)} (rest : List (Addr × Connection)) :
    ∀ {i : Nat} {done : List (Addr × Connection)} {m : Mem},
      IsQueue m (rest ++ (a, c) :: suf ++ done) → min_index = i + rest.length →
      ∃ m' last_node,
        insertMinToRearLoop min_index (rest.length + (suf.length + 1)) i none m =
          some (some last_node, m') ∧
        IsQueue m' (done ++ rest ++ suf) ∧ Frame m m' ∧
        m'.info last_node = some { c with valid := 1 } ∧ last_node < m'.brk ∧
        last_node ∉ (done ++ rest ++ suf).map Prod.fst := by
  induction rest with
  -- The round of the minimum: its node is popped and a copy of it kept aside.
  | nil =>
    intro i done m hq hi
    rw [List.nil_append, List.cons_append] at hq
    obtain ⟨m₁, hpop, hq₁, hnodes, hframe₁⟩ := pop_cons hq
    have hinfo : m₁.info a = some c := by
      obtain ⟨prev, hnode⟩ := hq.chain.nodes_eq (a, c) (by simp)
      simp [Mem.info, hnodes, hnode]
    obtain ⟨hq₂, hnew, hbrk, hinfo₂, hframe₂⟩ := mallocNode_spec hq₁ { c with valid := 1 }
    cases hmalloc : mallocNode m₁ { c with valid := 1 } with
    | mk last_node m₂ =>
      rw [hmalloc] at hq₂ hnew hbrk hinfo₂ hframe₂
      -- No later round takes one out.
      have hi' : min_index < ((i + 1 : Nat) : Int) := by
        rw [hi, List.length_nil]
        omega
      obtain ⟨m₃, hloop, hq₃, hframe₃⟩ :=
        @insertMinToRearLoop_after min_index suf (i + 1) done m₂ (some last_node) hq₂ hi'
      refine ⟨m₃, last_node, ?_, by simpa using hq₃, (hframe₁.trans hframe₂).trans hframe₃, ?_,
        Nat.lt_of_lt_of_le hbrk hframe₃.brk, ?_⟩
      · rw [← hloop]
        simp [insertMinToRearLoop, hpop, hinfo, hi, hmalloc]
      · exact (hframe₃.info last_node hbrk).trans hinfo₂
      · simpa [or_comm] using hnew
  -- A round before that one pops a node and inserts it again.
  | cons x rest ih =>
    intro i done m hq hi
    obtain ⟨b, d⟩ := x
    rw [List.cons_append, List.cons_append] at hq
    obtain ⟨m₁, m₂, hpop, -, hins, hq', hframe⟩ := rotate_one hq
    rw [List.append_assoc] at hq'
    rw [List.length_cons] at hi
    obtain ⟨m', last_node, hloop, hq'', hframe', hnode⟩ := ih (i := i + 1) hq' (by omega)
    have hne : (i : Int) ≠ min_index := by omega
    have hsplit : done ++ (b, d) :: rest = done ++ [(b, d)] ++ rest := by simp
    rw [hsplit]
    refine ⟨m', last_node, ?_, hq'', hframe.trans hframe', hnode⟩
    rw [← hloop, List.length_cons, Nat.add_right_comm]
    simp [insertMinToRearLoop, hpop, hins, hne]

/-- `insertMinToRear` moves the request at `j` to the rear. -/
theorem insertMinToRear_spec {m : Mem} {xs : List (Addr × Connection)} (h : IsQueue m xs) {j : Nat}
    (hj : j < xs.length) : ∃ m' ys, insertMinToRear m j = some m' ∧ IsQueue m' ys ∧ Frame m m' ∧
      requests ys = moveToRear j (requests xs) := by
  obtain ⟨pre, x, suf, rfl, rfl⟩ : ∃ pre x suf, xs = pre ++ x :: suf ∧ pre.length = j :=
    ⟨xs.take j, xs[j], xs.drop (j + 1), by simp, by simp; omega⟩
  obtain ⟨a, c⟩ := x
  obtain ⟨m₁, last_node, hloop, hq₁, hframe₁, hinfo, hbrk, hnew⟩ :=
    @insertMinToRearLoop_before pre.length a c suf pre 0 [] m (by simpa using h) (by simp)
  have hroom : ([] ++ pre ++ suf).length < m₁.queue.limit := by
    have hle := h.size_le
    rw [List.length_append, List.length_cons] at hle
    rw [hframe₁.limit, List.nil_append, List.length_append]
    omega
  obtain ⟨m', hins, hq', hframe'⟩ := insertConnection_ok hq₁ hroom hinfo hnew hbrk
  refine ⟨m', _, ?_, hq', hframe₁.trans hframe', ?_⟩
  · rw [List.length_append, List.length_cons] at hj
    have hsize : m.queue.size = pre.length + (suf.length + 1) := by simp [h.size]
    have hnonneg : ¬ ((pre.length : Int) < 0) := by omega
    simp [insertMinToRear, hnonneg, hsize, hloop, hins]
  · rw [moveToRear_eq (by simp)]
    simp [requests, List.eraseIdx_append_of_length_le, Connection.request]

/-! ## sortQueue -/

/-- Each round takes one more request to its place; by induction on the rounds to go. -/
theorem sortQueueLoop_spec {rs : List Request} (k : Nat) :
    ∀ {i : Nat} {m : Mem} {xs : List (Addr × Connection)}, IsQueue m xs →
      i + k = rs.length + 1 → 1 ≤ i → Rounds Request.key rs (i - 1) (requests xs) →
      ∃ m' ys, sortQueueLoop rs.length k i m = some m' ∧ IsQueue m' ys ∧ Frame m m' ∧
        Rounds Request.key rs rs.length (requests ys) := by
  induction k with
  | zero =>
    intro i m xs hq hik hi hrounds
    have hlast : i - 1 = rs.length := by omega
    rw [hlast] at hrounds
    exact ⟨m, xs, rfl, hq, .refl m, hrounds⟩
  | succ k ih =>
    intro i m xs hq hik hi hrounds
    have hlen : xs.length = rs.length := by simpa using hrounds.perm.length_eq
    have hne : xs ≠ [] := by
      rintro rfl
      rw [List.length_nil] at hlen
      omega
    obtain ⟨m₁, j, hmin, hq₁, hframe₁, hlast⟩ := minIndex_spec hq hne (rs.length - i)
    have hj : j < xs.length := by simpa using hlast.lt_length
    obtain ⟨m₂, ys, hrear, hq₂, hframe₂, hys⟩ := insertMinToRear_spec hq₁ hj
    have hrounds' : Rounds Request.key rs (i + 1 - 1) (requests ys) := by
      have hi' : i + 1 - 1 = i - 1 + 1 := by omega
      have hbound : rs.length - (i - 1 + 1) = rs.length - i := by omega
      rw [hys, hi']
      refine hrounds.succ (by omega) ?_
      rw [hbound]
      exact hlast
    obtain ⟨m', zs, hloop, hq', hframe', hrounds''⟩ :=
      ih (i := i + 1) hq₂ (by omega) (by omega) hrounds'
    refine ⟨m', zs, ?_, hq', (hframe₁.trans hframe₂).trans hframe', hrounds''⟩
    have hsub : (rs.length : Int) - i = ((rs.length - i : Nat) : Int) := by omega
    simp [sortQueueLoop, hsub, hmin, hrear, hloop]

/-- `sortQueue` ends, whatever the queue holds, after its rounds. -/
theorem sortQueue_rounds {m : Mem} {xs : List (Addr × Connection)} (h : IsQueue m xs) :
    ∃ m' ys, sortQueue m = some m' ∧ IsQueue m' ys ∧ Frame m m' ∧
      Rounds Request.key (requests xs) (requests xs).length (requests ys) := by
  obtain ⟨m', ys, hloop, hq, hframe, hrounds⟩ :=
    @sortQueueLoop_spec (requests xs) xs.length 1 m xs h (by simp; omega) (by omega) .zero
  refine ⟨m', ys, ?_, hq, hframe, hrounds⟩
  rw [length_requests] at hloop
  rw [sortQueue, h.size]
  exact hloop

/-- The queue then holds the same requests in ascending order. -/
theorem sortQueue_spec {m : Mem} {xs : List (Addr × Connection)} (h : IsQueue m xs) :
    ∃ m' ys, sortQueue m = some m' ∧ IsQueue m' ys ∧ Frame m m' ∧
      (requests ys).Perm (requests xs) ∧ Ascending (requests ys) := by
  obtain ⟨m', ys, hsort, hq, hframe, hrounds⟩ := sortQueue_rounds h
  exact ⟨m', ys, hsort, hq, hframe, hrounds.perm, hrounds.sorted⟩

/-! ## FIFO and SFF -/

section Insert

variable {m : Mem} {xs : List (Addr × Connection)}

/-- What both schedulers do first: append a fresh node with a copy of the connection. -/
theorem insertCopy_spec (h : IsQueue m xs) (hroom : xs.length < m.queue.limit) (c : Connection) :
    ∃ m' a, insertConnection (mallocNode m c).2 (some (mallocNode m c).1) = some (true, m') ∧
      IsQueue m' (xs ++ [(a, c)]) ∧ Frame m m' := by
  obtain ⟨hq, hnew, hbrk, hinfo, hframe⟩ := mallocNode_spec h c
  have hroom' : xs.length < (mallocNode m c).2.queue.limit := hroom
  obtain ⟨m', hins, hq', hframe'⟩ := insertConnection_ok hq hroom' hinfo hnew hbrk
  exact ⟨m', _, hins, hq', hframe.trans hframe'⟩

/-- `FIFO` appends its request. -/
theorem FIFO_spec (h : IsQueue m xs) (hroom : xs.length < m.queue.limit) (c : Connection) :
    ∃ m' ys, FIFO m c = some m' ∧ IsQueue m' ys ∧ Frame m m' ∧
      requests ys = requests xs ++ [c.request] := by
  obtain ⟨m', a, hins, hq, hframe⟩ := insertCopy_spec h hroom c
  exact ⟨m', _, by simp [FIFO, hins], hq, hframe, by simp⟩

/-- `SFF` adds its request and leaves the queue in ascending order. -/
theorem SFF_spec (h : IsQueue m xs) (hroom : xs.length < m.queue.limit) (c : Connection) :
    ∃ m' ys, SFF m c = some m' ∧ IsQueue m' ys ∧ Frame m m' ∧
      (requests ys).Perm (requests xs ++ [c.request]) ∧ Ascending (requests ys) := by
  obtain ⟨m₁, a, hins, hq, hframe⟩ := insertCopy_spec h hroom c
  have hsize : m₁.queue.size = xs.length + 1 := by simp [hq.size]
  cases xs with
  | nil =>
    refine ⟨m₁, [(a, c)], ?_, hq, hframe, .refl _, List.pairwise_singleton _ _⟩
    have hsmall : ¬ m₁.queue.size > 1 := by simp [hsize]
    simp [SFF, hins, hsmall]
  | cons x xs =>
    obtain ⟨m', ys, hsort, hq', hframe', hperm, hasc⟩ := sortQueue_spec hq
    refine ⟨m', ys, ?_, hq', hframe.trans hframe', ?_, hasc⟩
    · have hlarge : m₁.queue.size > 1 := by simp [hsize]
      simp [SFF, hins, hlarge, hsort]
    · simpa using hperm

end Insert

/-! ## Sequences of SFF insertions and pops -/

/-- The queue, with the requests inserted and the requests popped so far. -/
structure SffState where
  mem : Mem
  inserted : List Request
  popped : List Request

inductive SffOp where
  | insert (connection : Connection)
  | pop

def SffState.init (limit : Int) : SffState := ⟨connectionQueueInit limit, [], []⟩

def sffNext (s : SffState) : SffOp → Option SffState
  | .insert connection =>
    -- insertions are made only when the queue is not full
    if isFull s.mem then
      none
    else do
      let m ← SFF s.mem connection
      return { s with mem := m, inserted := s.inserted ++ [connection.request] }
  | .pop => do
    let (item, m) ← pop s.mem
    match item with
    | none => return { s with mem := m }
    | some a => do
      let info ← m.info a
      return { s with mem := m, popped := s.popped ++ [info.request] }

def sffSystem (limit : Int) : Lts SffState SffOp := .ofFun (· = .init limit) sffNext

/-- The waiting requests are those inserted and not popped, in ascending order. -/
structure SffInv (s : SffState) (xs : List (Addr × Connection)) : Prop where
  isQueue : IsQueue s.mem xs
  ascending : Ascending (requests xs)
  conserved : s.inserted.Perm (s.popped ++ requests xs)

theorem sffInv_init (limit : Int) : SffInv (.init limit) [] where
  isQueue := isQueue_init limit
  ascending := List.Pairwise.nil
  conserved := .refl _

/-- A pop from a queue that is not empty returns a request of minimal file size. -/
theorem SffInv.pop {s : SffState} {xs : List (Addr × Connection)} (h : SffInv s xs) (hne : xs ≠ []) :
    ∃ a c m' ys, Web.pop s.mem = some (some a, m') ∧ m'.info a = some c ∧ xs = (a, c) :: ys ∧
      SffInv { s with mem := m', popped := s.popped ++ [c.request] } ys ∧
      ∀ r ∈ requests xs, c.filesize.toInt ≤ r.filesize.toInt := by
  obtain ⟨hq, hasc, hcons⟩ := h
  cases xs with
  | nil => exact absurd rfl hne
  | cons x ys =>
    obtain ⟨a, c⟩ := x
    rw [requests_cons] at hasc hcons
    have hasc' := List.pairwise_cons.mp hasc
    obtain ⟨m', hpop, hq', hnodes, hframe⟩ := pop_cons hq
    obtain ⟨prev, hnode⟩ := hq.chain.nodes_eq (a, c) (by simp)
    refine ⟨a, c, m', ys, hpop, by simp [Mem.info, hnodes, hnode], rfl,
      ⟨hq', hasc'.2, by simpa using hcons⟩, ?_⟩
    intro r hr
    rcases List.mem_cons.mp hr with rfl | hr
    · exact le_refl c.filesize.toInt
    · exact hasc'.1 r hr

/-- A call of `SFF` keeps the order. -/
theorem SffInv.insert {s : SffState} {xs : List (Addr × Connection)} (h : SffInv s xs)
    (hfull : isFull s.mem = false) (c : Connection) :
    ∃ m' ys, SFF s.mem c = some m' ∧
      SffInv { s with mem := m', inserted := s.inserted ++ [c.request] } ys := by
  obtain ⟨hq, _, hcons⟩ := h
  have hroom : xs.length < s.mem.queue.limit := by
    have hle := hq.size_le
    have hne : xs.length ≠ s.mem.queue.limit := by
      intro heq
      rw [(isFull_iff hq).mpr heq] at hfull
      cases hfull
    omega
  obtain ⟨m', ys, hsff, hq', _, hperm, hasc⟩ := SFF_spec hq hroom c
  refine ⟨m', ys, hsff, hq', hasc, ?_⟩
  calc s.inserted ++ [c.request]
    _ |>.Perm (s.popped ++ requests xs ++ [c.request]) := hcons.append_right _
    _ |>.Perm (s.popped ++ requests ys) := by
      rw [List.append_assoc]
      exact hperm.symm.append_left _

/-- Either call keeps it. -/
theorem sffInv_step (limit : Int) (s : SffState) (op : SffOp) (t : SffState)
    (h : ∃ xs, SffInv s xs) (hstep : (sffSystem limit).step s op t) : ∃ ys, SffInv t ys := by
  obtain ⟨xs, h⟩ := h
  replace hstep : sffNext s op = some t := hstep
  cases op with
  | insert c =>
    cases hfull : isFull s.mem with
    | true => simp [sffNext, hfull] at hstep
    | false =>
      obtain ⟨m', ys, hsff, hinv⟩ := h.insert hfull c
      obtain rfl : _ = t := by simpa [sffNext, hfull, hsff] using hstep
      exact ⟨ys, hinv⟩
  | pop =>
    by_cases hne : xs = []
    · subst hne
      obtain rfl : _ = t := by simpa [sffNext, pop_nil h.isQueue] using hstep
      exact ⟨[], h⟩
    · obtain ⟨a, c, m', ys, hpop, hinfo, _, hinv, _⟩ := h.pop hne
      obtain rfl : _ = t := by simpa [sffNext, hpop, hinfo] using hstep
      exact ⟨ys, hinv⟩

/-! ### What a run records -/

/-- What an operation inserts. -/
def SffOp.request? : SffOp → Option Request
  | .insert connection => some connection.request
  | .pop => none

/-- An insertion records its request, and a pop records none. -/
theorem sffNext_inserted {s t : SffState} {op : SffOp} (h : sffNext s op = some t) :
    t.inserted = s.inserted ++ op.request?.toList := by
  cases op with
  | insert c =>
    obtain ⟨_, h⟩ := Option.ite_none_left_eq_some.mp h
    obtain ⟨m, _, h⟩ := Option.bind_eq_some_iff.mp h
    obtain rfl := Option.some.inj h
    rfl
  | pop =>
    obtain ⟨⟨item, m⟩, _, h⟩ := Option.bind_eq_some_iff.mp h
    cases item with
    | none =>
      obtain rfl := Option.some.inj h
      exact (List.append_nil _).symm
    | some a =>
      obtain ⟨info, _, h⟩ := Option.bind_eq_some_iff.mp h
      obtain rfl := Option.some.inj h
      exact (List.append_nil _).symm

/-- What has been inserted is what the operations of the run insert, in their order. -/
theorem sff_inserted {limit : Int} {ops : List SffOp} {s : SffState}
    (hrun : (sffSystem limit).Run (.init limit) ops s) :
    s.inserted = ops.filterMap SffOp.request? := by
  induction hrun with
  | nil => rfl
  | @snoc t u ops op _ last ih =>
    rw [sffNext_inserted last, ih, List.filterMap_append]
    cases op <;> rfl

/-- A pop records the request at the front of the queue, if there is one. -/
theorem SffInv.popped {s t : SffState} {xs : List (Addr × Connection)} (h : SffInv s xs)
    (hstep : sffNext s .pop = some t) : t.popped = s.popped ++ (requests xs).take 1 := by
  cases xs with
  | nil =>
    obtain rfl : _ = t := by simpa [sffNext, pop_nil h.isQueue] using hstep
    exact (List.append_nil _).symm
  | cons x xs =>
    obtain ⟨a, c, m', ys, hpop, hinfo, hxs, _, _⟩ := h.pop (List.cons_ne_nil x xs)
    obtain rfl : _ = t := by simpa [sffNext, hpop, hinfo] using hstep
    rw [(List.cons.inj hxs).1]
    rfl

/-- **SFF serves the smallest file first.** After every sequence of insertions and pops the queue is
ascending, holds what the operations have inserted and not popped, and its next `pop` returns the
request at its front, one of minimal size; and `sortQueue` returns a permutation in ascending order
of any queue it is given. -/
theorem sff_smallest_first (limit : Int) :
    (∀ ops s, (sffSystem limit).Run (.init limit) ops s →
      s.inserted = ops.filterMap SffOp.request? ∧
      ∃ xs, IsQueue s.mem xs ∧ Ascending (requests xs) ∧
        s.inserted.Perm (s.popped ++ requests xs) ∧
        (∀ t, sffNext s .pop = some t → t.popped = s.popped ++ (requests xs).take 1) ∧
        (xs ≠ [] → ∃ a c m', pop s.mem = some (some a, m') ∧ m'.info a = some c ∧
          c.request ∈ requests xs ∧ ∀ r ∈ requests xs, c.filesize.toInt ≤ r.filesize.toInt) ∧
        (isFull s.mem = false → ∀ c, ∃ m', SFF s.mem c = some m')) ∧
    (∀ m xs, IsQueue m xs → ∃ m' ys, sortQueue m = some m' ∧ IsQueue m' ys ∧
      m'.queue.size = m.queue.size ∧ m'.refused = m.refused ∧
      (requests ys).Perm (requests xs) ∧ Ascending (requests ys)) := by
  constructor
  · intro ops s hrun
    obtain ⟨xs, hinv⟩ := hrun.invariant (sffInv_step limit) ⟨[], sffInv_init limit⟩
    refine ⟨sff_inserted hrun, xs, hinv.isQueue, hinv.ascending, hinv.conserved,
      fun t hstep => hinv.popped hstep, ?_, ?_⟩
    · intro hne
      obtain ⟨a, c, m', ys, hpop, hinfo, rfl, _, hmin⟩ := hinv.pop hne
      exact ⟨a, c, m', hpop, hinfo, List.mem_cons_self, hmin⟩
    · intro hfull c
      obtain ⟨m', _, hsff, _⟩ := hinv.insert hfull c
      exact ⟨m', hsff⟩
  · intro m xs hq
    obtain ⟨m', ys, hsort, hq', hframe, hperm, hasc⟩ := sortQueue_spec hq
    have hlen : ys.length = xs.length := by simpa using hperm.length_eq
    exact ⟨m', ys, hsort, hq', by rw [hq'.size, hq.size, hlen], hframe.refused, hperm, hasc⟩

/-- A connection with a file of that size. -/
def sized (fd filesize : Int32) : Connection :=
  { connectionInit with fd := fd, filesize := filesize }

/-- A request of seven bytes comes, then one of one byte, and one is popped: the smaller one. The
other one is left. -/
theorem sff_smallest_first_two :
    ∃ s, (sffSystem 2).Run (.init 2) [.insert (sized 4 7), .insert (sized 5 1), .pop] s ∧
      s.inserted = [(sized 4 7).request, (sized 5 1).request] ∧
      s.popped = [(sized 5 1).request] ∧
      ∃ xs, IsQueue s.mem xs ∧ requests xs = [(sized 4 7).request] := by
  have hruns : ([.insert (sized 4 7), .insert (sized 5 1), .pop].foldlM sffNext (.init 2)).any
      (fun s => s.popped = [(sized 5 1).request]) = true := by decide +kernel
  rw [Option.any_eq_true] at hruns
  obtain ⟨s, hs, hpopped⟩ := hruns
  have hpopped := of_decide_eq_true hpopped
  have hrun : (sffSystem 2).Run (.init 2) [.insert (sized 4 7), .insert (sized 5 1), .pop] s :=
    Lts.run_ofFun.mpr hs
  obtain ⟨hinserted, xs, hqueue, _, hperm, _⟩ := (sff_smallest_first 2).1 _ s hrun
  have hinserted : s.inserted = [(sized 4 7).request, (sized 5 1).request] := hinserted
  refine ⟨s, hrun, hinserted, hpopped, xs, hqueue, ?_⟩
  rw [hinserted, hpopped] at hperm
  -- both sides hold the popped request once
  have hrest := (List.perm_cons _).mp ((List.Perm.swap _ _ _).trans hperm)
  exact List.perm_singleton.mp hrest.symm

end OsLab.Web
