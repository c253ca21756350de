import Mathlib.Logic.Function.Basic
import Mathlib.Data.List.Basic

/-!
# The web server's connection queue

`insert_connection`, `pop`, `isEmpty`, `isFull` and `connection_queue_init` on a heap of nodes. A
null dereference is `none`. The second half states what a well-formed queue is: the nodes that
`prev` links from `head` hold what is waiting, and the last of them is `tail`.

* **`Mem`**, **`Node`**, **`insertConnection`**, **`pop`** -- the heap and the operations as the
  code has them.
* **`Chain`**, **`IsQueue`** -- a chain of nodes, and a queue that holds it.
* **`pop_cons`**, **`insertConnection_ok`**, **`insertConnection_full`** -- the operations on such a
  queue.
* **`Frame`**, **`rotate_one`** -- what the operations leave alone, and a node that goes from the
  front to the rear.
-/

namespace OsLab.Web

/-- `MAXBUF` -/
def maxBuf : Nat := 8192

/-- A C string in a buffer of `MAXBUF` bytes. -/
structure CString where
  bytes : List UInt8
  fits : bytes.length < maxBuf
  deriving DecidableEq

/-- `strncpy(destination, source, MAXBUF)`: at most `MAXBUF` bytes are copied. -/
def strncpy (source : CString) : CString :=
  ⟨source.bytes.take maxBuf, Nat.lt_of_le_of_lt (List.length_take_le' ..) source.fits⟩

/-- A string that fits its buffer is copied whole. -/
@[simp] theorem strncpy_eq (source : CString) : strncpy source = source := by
  obtain ⟨bytes, hfits⟩ := source
  simp only [strncpy, CString.mk.injEq]
  exact List.take_of_length_le (Nat.le_of_lt hfits)

/-- `connection_t` -/
structure Connection where
  valid : Int32
  fd : Int32
  dynamic : Int32
  filesize : Int32
  mode : UInt32
  method : CString
  uri : CString
  version : CString
  filename : CString
  filetype : CString
  cgiargs : CString
  deriving DecidableEq

def emptyString : CString := ⟨[], by decide⟩

/-- `connection_init` on a fresh connection. -/
def connectionInit : Connection where
  valid := 0
  fd := -1
  dynamic := -1
  filesize := -1
  -- the int -1 stored in an unsigned mode_t
  mode := 4294967295
  -- the buffers hold whatever malloc returned; every use copies over them first
  method := emptyString
  uri := emptyString
  version := emptyString
  filename := emptyString
  filetype := emptyString
  cgiargs := emptyString

/-- `copy` -/
def copy (destination source : Connection) : Connection :=
  { destination with
    valid := source.valid
    fd := source.fd
    dynamic := source.dynamic
    filesize := source.filesize
    mode := source.mode
    uri := strncpy source.uri
    version := strncpy source.version
    method := strncpy source.method
    filename := strncpy source.filename
    filetype := strncpy source.filetype
    cgiargs := strncpy source.cgiargs }

@[simp] theorem copy_eq (destination source : Connection) : copy destination source = source := by
  simp [copy]

/-! ## The heap and the queue -/

abbrev Addr := Nat

/-- `node_t`; the connection a node's `info` points to belongs to that node alone. -/
structure Node where
  info : Connection
  prev : Option Addr
  deriving DecidableEq

/-- `queue_t` without its lock and condition variables. -/
structure Queue where
  head : Option Addr
  tail : Option Addr
  size : Nat
  limit : Nat
  deriving DecidableEq

/-- The nodes allocated so far, the next address to allocate, and the queue. `refused` counts
the calls of `insert_connection` that returned false; no code reads it. -/
structure Mem where
  nodes : Addr → Option Node
  brk : Addr
  queue : Queue
  refused : Nat

/-- `connection_queue_init` -/
def connectionQueueInit (limit : Int) : Mem where
  nodes _ := none
  brk := 0
  queue := ⟨none, none, 0, (if limit ≤ 0 then 65535 else limit).toNat⟩
  refused := 0

/-- A fresh node that holds `info`. -/
def mallocNode (m : Mem) (info : Connection) : Addr × Mem :=
  (m.brk, { m with
    nodes := Function.update m.nodes m.brk (some ⟨info, none⟩)
    brk := m.brk + 1 })

def Mem.setPrev (m : Mem) (a : Addr) (node : Node) (prev : Option Addr) : Mem :=
  { m with nodes := Function.update m.nodes a (some { node with prev := prev }) }

/-- `isEmpty` -/
def isEmpty (m : Mem) : Bool := m.queue.size = 0

/-- `isFull` -/
def isFull (m : Mem) : Bool := m.queue.size = m.queue.limit

/-- `insert_connection` -/
def insertConnection (m : Mem) (item : Option Addr) : Option (Bool × Mem) :=
  match item with
  | none => return (false, { m with refused := m.refused + 1 })
  | some a =>
    if m.queue.size ≥ m.queue.limit then
      return (false, { m with refused := m.refused + 1 })
    else do
      let node ← m.nodes a
      let m := m.setPrev a node none
      if m.queue.size = 0 then
        return (true, { m with queue :=
          { m.queue with head := some a, tail := some a, size := m.queue.size + 1 } })
      else
        let tail ← m.queue.tail
        let tailNode ← m.nodes tail
        let m := m.setPrev tail tailNode (some a)
        return (true, { m with queue := { m.queue with tail := some a, size := m.queue.size + 1 } })

/-- `pop` -/
def pop (m : Mem) : Option (Option Addr × Mem) :=
  if isEmpty m then
    return (none, m)
  else do
    let item ← m.queue.head
    let node ← m.nodes item
    return (some item,
      { m with queue := { m.queue with head := node.prev, size := m.queue.size - 1 } })

/-- The connection a node holds. -/
def Mem.info (m : Mem) (a : Addr) : Option Connection := (m.nodes a).map Node.info

/-! ## Well-formed queues -/

/-- Following `prev` from `h` visits exactly these nodes, in this order. -/
def Chain (nodes : Addr → Option Node) : Option Addr → List (Addr × Connection) → Prop
  | h, [] => h = none
  | h, (a, c) :: xs => h = some a ∧ ∃ prev, nodes a = some ⟨c, prev⟩ ∧ Chain nodes prev xs

/-- The queue holds the nodes `xs`, oldest first. -/
structure IsQueue (m : Mem) (xs : List (Addr × Connection)) : Prop where
  chain : Chain m.nodes m.queue.head xs
  size : m.queue.size = xs.length
  size_le : xs.length ≤ m.queue.limit
  tail : ∀ x ∈ xs.getLast?, m.queue.tail = some x.1
  nodup : (xs.map Prod.fst).Nodup
  below : ∀ x ∈ xs, x.1 < m.brk

/-- A new queue is empty. -/
theorem isQueue_init (limit : Int) : IsQueue (connectionQueueInit limit) [] where
  chain := rfl
  size := rfl
  size_le := Nat.zero_le _
  tail := by simp
  nodup := List.nodup_nil
  below := by simp

/-- A chain only depends on the nodes it visits. -/
theorem Chain.congr {nodes nodes' : Addr → Option Node} {xs : List (Addr × Connection)} :
    ∀ {h}, Chain nodes h xs → (∀ x ∈ xs, nodes' x.1 = nodes x.1) → Chain nodes' h xs := by
  induction xs with
  | nil => intro h hc _; exact hc
  | cons x xs ih =>
    rintro h ⟨rfl, prev, hx, hc⟩ hsame
    rw [List.forall_mem_cons] at hsame
    exact ⟨rfl, prev, hsame.1.trans hx, ih hc hsame.2⟩

theorem Chain.nodes_eq {nodes : Addr → Option Node} {xs : List (Addr × Connection)} :
    ∀ {h}, Chain nodes h xs → ∀ x ∈ xs, ∃ prev, nodes x.1 = some ⟨x.2, prev⟩ := by
  induction xs with
  | nil => intro h _ x hx; cases hx
  | cons y xs ih =>
    rintro h ⟨_, prev, hy, hc⟩ x hx
    rcases List.mem_cons.mp hx with rfl | hx
    · exact ⟨prev, hy⟩
    · exact ih hc x hx

/-- Linking a node behind the last node of a chain extends the chain. -/
theorem Chain.snoc {nodes nodes' : Addr → Option Node} {xs : List (Addr × Connection)}
    {t a : Addr} {ct c : Connection} : ∀ {h}, Chain nodes h (xs ++ [(t, ct)]) →
      (∀ x ∈ xs, nodes' x.1 = nodes x.1) → nodes' t = some ⟨ct, some a⟩ →
      nodes' a = some ⟨c, none⟩ → Chain nodes' h (xs ++ [(t, ct)] ++ [(a, c)]) := by
  induction xs with
  | nil =>
    rintro h ⟨rfl, _⟩ _ ht ha
    exact ⟨rfl, some a, ht, rfl, none, ha, rfl⟩
  | cons x xs ih =>
    rintro h ⟨rfl, prev, hx, hc⟩ hsame ht ha
    rw [List.forall_mem_cons] at hsame
    exact ⟨rfl, prev, hsame.1.trans hx, ih hc hsame.2 ht ha⟩

/-- From `m` to `m'` no connection allocated before changes and no insert is refused. -/
structure Frame (m m' : Mem) : Prop where
  limit : m'.queue.limit = m.queue.limit
  brk : m.brk ≤ m'.brk
  info : ∀ b < m.brk, m'.info b = m.info b
  refused : m'.refused = m.refused

theorem Frame.refl (m : Mem) : Frame m m := ⟨rfl, Nat.le_refl _, fun _ _ => rfl, rfl⟩

theorem Frame.trans {m m' m'' : Mem} (h : Frame m m') (h' : Frame m' m'') : Frame m m'' where
  limit := h'.limit.trans h.limit
  brk := Nat.le_trans h.brk h'.brk
  info b hb := (h'.info b (Nat.lt_of_lt_of_le hb h.brk)).trans (h.info b hb)
  refused := h'.refused.trans h.refused

/-! ## What the operations do to the list -/

section Operations

variable {m : Mem} {xs : List (Addr × Connection)}

/-- `isEmpty` says whether the queue is empty. -/
theorem isEmpty_iff (h : IsQueue m xs) : isEmpty m = true ↔ xs = [] := by
  simp [isEmpty, h.size]

/-- `isFull` says whether there is no room. -/
theorem isFull_iff (h : IsQueue m xs) : isFull m = true ↔ xs.length = m.queue.limit := by
  simp [isFull, h.size]

theorem pop_nil (h : IsQueue m []) : pop m = some (none, m) := by
  have hempty : isEmpty m = true := (isEmpty_iff h).mpr rfl
  simp [pop, hempty]

/-- `pop` takes the oldest node and changes no node. -/
theorem pop_cons {a : Addr} {c : Connection} (h : IsQueue m ((a, c) :: xs)) :
    ∃ m', pop m = some (some a, m') ∧ IsQueue m' xs ∧ m'.nodes = m.nodes ∧ Frame m m' := by
  obtain ⟨⟨hhead, prev, ha, hchain⟩, hsize, hle, htail, hnodup, hbelow⟩ := h
  have hnonempty : isEmpty m = false := by simp [isEmpty, hsize]
  refine ⟨{ m with queue := { m.queue with head := prev, size := m.queue.size - 1 } }, ?_, ?_,
    rfl, ⟨rfl, Nat.le_refl _, fun _ _ => rfl, rfl⟩⟩
  · simp [pop, hnonempty, hhead, ha]
  · rw [List.length_cons] at hle hsize
    refine ⟨hchain, ?_, ?_, ?_, ?_, ?_⟩
    · simp [hsize]
    · show xs.length ≤ m.queue.limit
      omega
    · intro x hx
      exact htail x (by cases xs <;> simp_all)
    · exact (List.nodup_cons.mp hnodup).2
    · exact fun x hx => hbelow x (List.mem_cons_of_mem _ hx)

/-- An insert of a node that is not in the queue appends it, when there is room. No node's
connection changes. -/
theorem insertConnection_ok {a : Addr} {c : Connection} (h : IsQueue m xs)
    (hroom : xs.length < m.queue.limit) (hinfo : m.info a = some c)
    (hnew : a ∉ xs.map Prod.fst) (hbrk : a < m.brk) :
    ∃ m', insertConnection m (some a) = some (true, m') ∧ IsQueue m' (xs ++ [(a, c)]) ∧
      Frame m m' := by
  obtain ⟨hchain, hsize, hle, htail, hnodup, hbelow⟩ := h
  obtain ⟨prev, ha⟩ : ∃ prev, m.nodes a = some ⟨c, prev⟩ := by
    obtain ⟨⟨info, prev⟩, ha, rfl⟩ := Option.map_eq_some_iff.mp hinfo
    exact ⟨prev, ha⟩
  have hnodup' : ((xs ++ [(a, c)]).map Prod.fst).Nodup := by
    rw [List.map_append, List.nodup_append]
    exact ⟨hnodup, by simp, by
      intro b hb b' hb' heq
      obtain rfl : b' = a := by simpa using hb'
      exact hnew (heq ▸ hb)⟩
  have hbelow' : ∀ x ∈ xs ++ [(a, c)], x.1 < m.brk := by
    intro x hx
    rcases List.mem_append.mp hx with hx | hx
    · exact hbelow x hx
    · rw [List.mem_singleton.mp hx]
      exact hbrk
  -- An empty queue may still have a stale tail, which is overwritten before it is read.
  rcases List.eq_nil_or_concat' xs with rfl | ⟨ys, ⟨t, ct⟩, rfl⟩
  · refine ⟨{ m.setPrev a ⟨c, prev⟩ none with
      queue := { m.queue with head := some a, tail := some a, size := 1 } }, ?_, ?_,
      rfl, Nat.le_refl _, fun b _ => ?_, rfl⟩
    · have hlimit : m.queue.limit ≠ 0 := Nat.ne_of_gt hroom
      simp [insertConnection, hsize, ha, Mem.setPrev, hlimit]
    · refine ⟨⟨rfl, none, ?_, rfl⟩, rfl, hroom, by simp, hnodup', hbelow'⟩
      simp [Mem.setPrev]
    · by_cases hb : b = a <;> simp [Mem.info, Mem.setPrev, hb, ha]
  · -- the old tail is not the new node, so both writes to `prev` survive
    have hta : t ≠ a := by
      rintro rfl
      exact hnew (by simp)
    have ht : m.queue.tail = some t := htail (t, ct) (by simp)
    obtain ⟨prevT, hnodeT⟩ := hchain.nodes_eq (t, ct) (by simp)
    have hne : m.queue.size ≠ 0 := by simp [hsize]
    refine ⟨{ (m.setPrev a ⟨c, prev⟩ none).setPrev t ⟨ct, prevT⟩ (some a) with
      queue := { m.queue with tail := some a, size := m.queue.size + 1 } }, ?_, ?_,
      rfl, Nat.le_refl _, fun b _ => ?_, rfl⟩
    · have hroom' : ¬ m.queue.size ≥ m.queue.limit := by omega
      simp [insertConnection, hroom', ha, hne, ht, Mem.setPrev, hta, hnodeT]
    · refine ⟨?_, by simp [hsize], ?_, by simp, hnodup', hbelow'⟩
      -- Only the old tail changes its `prev`, and it is the last node of the chain.
      · apply Chain.snoc hchain
        · intro x hx
          have hxt : x.1 ≠ t := by
            rintro rfl
            rw [List.map_append, List.nodup_append] at hnodup
            exact hnodup.2.2 x.1 (List.mem_map_of_mem hx) x.1 (by simp) rfl
          have hxa : x.1 ≠ a := by
            rintro rfl
            exact hnew (by simp [List.mem_map_of_mem hx])
          simp [Mem.setPrev, hxt, hxa]
        · simp [Mem.setPrev]
        · simp [Mem.setPrev, hta.symm]
      · simp only [List.length_append, List.length_singleton] at hroom ⊢
        exact hroom
    · by_cases hb : b = a <;> by_cases hbt : b = t <;>
        simp_all [Mem.info, Mem.setPrev]

/-- A full queue changes in nothing but the count of refusals. -/
theorem insertConnection_full (h : IsQueue m xs) (hfull : isFull m = true) (item : Option Addr) :
    insertConnection m item = some (false, { m with refused := m.refused + 1 }) := by
  have hsize : m.queue.limit ≤ m.queue.size :=
    Nat.le_of_eq (h.size.trans ((isFull_iff h).mp hfull)).symm
  cases item with
  | none => rfl
  | some a => simp [insertConnection, hsize]

/-- Nothing reads the count of refusals. -/
theorem IsQueue.recount (h : IsQueue m xs) (refused : Nat) :
    IsQueue { m with refused := refused } xs :=
  ⟨h.chain, h.size, h.size_le, h.tail, h.nodup, h.below⟩

theorem setPrev_isSome {a : Addr} {node : Node} (ha : m.nodes a = some node) (prev : Option Addr)
    (b : Addr) : ((m.setPrev a node prev).nodes b).isSome = (m.nodes b).isSome := by
  unfold Mem.setPrev
  by_cases hb : b = a
  · simp [hb, ha]
  · simp [hb]

/-- An insert makes no node and removes none. -/
theorem insertConnection_nodes {item : Option Addr} {inserted : Bool} {m' : Mem}
    (h : insertConnection m item = some (inserted, m')) :
    m'.brk = m.brk ∧ ∀ b, (m'.nodes b).isSome = (m.nodes b).isSome := by
  cases item with
  | none =>
    cases h
    exact ⟨rfl, fun _ => rfl⟩
  | some a =>
    unfold insertConnection at h
    dsimp only at h
    split at h
    · cases h
      exact ⟨rfl, fun _ => rfl⟩
    · obtain ⟨node, hnode, h⟩ := Option.bind_eq_some_iff.mp h
      have hfirst := setPrev_isSome hnode none
      split at h
      · cases h
        exact ⟨rfl, hfirst⟩
      · obtain ⟨tail, _, h⟩ := Option.bind_eq_some_iff.mp h
        obtain ⟨tailNode, htail, h⟩ := Option.bind_eq_some_iff.mp h
        cases h
        exact ⟨rfl, fun b => (setPrev_isSome htail (some a) b).trans (hfirst b)⟩

/-- A fresh node; `malloc` leaves anything in it. -/
def Mem.malloc (m : Mem) (node : Node) : Mem :=
  { m with nodes := Function.update m.nodes m.brk (some node), brk := m.brk + 1 }

theorem IsQueue.ne_brk (h : IsQueue m xs) : ∀ x ∈ xs, x.1 ≠ m.brk :=
  fun x hx => Nat.ne_of_lt (h.below x hx)

/-- Allocating a node leaves the queue as it was. -/
theorem IsQueue.malloc (h : IsQueue m xs) (node : Node) : IsQueue (m.malloc node) xs := by
  refine ⟨h.chain.congr fun x hx => ?_, h.size, h.size_le, h.tail, h.nodup, fun x hx => ?_⟩
  · exact Function.update_of_ne (h.ne_brk x hx) ..
  · exact Nat.lt_succ_of_lt (h.below x hx)

/-- A fresh node is not in the queue. -/
theorem mallocNode_spec (h : IsQueue m xs) (info : Connection) :
    IsQueue (mallocNode m info).2 xs ∧ (mallocNode m info).1 ∉ xs.map Prod.fst ∧
      (mallocNode m info).1 < (mallocNode m info).2.brk ∧
      (mallocNode m info).2.info (mallocNode m info).1 = some info ∧
      Frame m (mallocNode m info).2 := by
  refine ⟨h.malloc _, ?_, Nat.lt_succ_self _, ?_, rfl, Nat.le_succ _, ?_, rfl⟩
  · intro hmem
    obtain ⟨x, hx, heq⟩ := List.mem_map.mp hmem
    exact h.ne_brk x hx heq
  · simp [mallocNode, Mem.info]
  · intro b hb
    simp [mallocNode, Mem.info, Nat.ne_of_lt hb]

/-- The body of a rotation: the oldest node is popped and inserted again, as it was. -/
theorem rotate_one {a : Addr} {c : Connection} (h : IsQueue m ((a, c) :: xs)) :
    ∃ m' m'', pop m = some (some a, m') ∧ m'.info a = some c ∧
      insertConnection m' (some a) = some (true, m'') ∧ IsQueue m'' (xs ++ [(a, c)]) ∧
      Frame m m'' := by
  obtain ⟨m', hpop, hq', hnodes, hframe⟩ := pop_cons h
  obtain ⟨prev, hnode⟩ := h.chain.nodes_eq (a, c) (by simp)
  have hinfo : m'.info a = some c := by simp [Mem.info, hnodes, hnode]
  have hroom : xs.length < m'.queue.limit := by
    have := h.size_le
    rw [hframe.limit]
    exact this
  have hnew : a ∉ xs.map Prod.fst := (List.nodup_cons.mp h.nodup).1
  have hbrk : a < m'.brk := Nat.lt_of_lt_of_le (h.below (a, c) (by simp)) hframe.brk
  obtain ⟨m'', hins, hq'', hframe'⟩ := insertConnection_ok hq' hroom hinfo hnew hbrk
  exact ⟨m', m'', hpop, hinfo, hins, hq'', hframe.trans hframe'⟩

end Operations

end OsLab.Web
