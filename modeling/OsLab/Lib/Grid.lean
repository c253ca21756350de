import Mathlib.Algebra.BigOperators.Group.List.Basic
import Mathlib.Algebra.GroupWithZero.Nat
import Mathlib.Data.List.Basic

/-!
# Grids of cells

A list of rows of one length, read and written at a position (row, column), and how writing changes
the number of cells with a property. A set of positions marked with one value at a time (`putAll`)
is what an allocator does to its bitmap.

* **`Shape`** -- `rows` rows of `cols` cells. Every position inside has a cell, every position with
  a cell is inside, and writing keeps the shape.
* **`get?_put`**, **`get?_putAll`** -- what is read after writing one cell, or many.
* **`count_put`**, **`count_putAll_add`**, **`count_putAll_sub`** -- how the number of cells with a
  property moves.
-/

namespace OsLab.Grid

variable {α : Type*} {m : List (List α)} {rows cols : Nat} {p q : Nat × Nat} {a b : α}

/-- The cell at a position, if the grid has it. -/
def get? (m : List (List α)) (p : Nat × Nat) : Option α := m[p.1]?.bind (·[p.2]?)

/-- The grid with one cell replaced. -/
def put (m : List (List α)) (p : Nat × Nat) (a : α) : List (List α) := m.modify p.1 (·.set p.2 a)

/-- The number of cells with a property. -/
def count (f : α → Bool) (m : List (List α)) : Nat := (m.map (List.countP f)).sum

/-- `rows` rows of `cols` cells. -/
structure Shape (rows cols : Nat) (m : List (List α)) : Prop where
  rows : m.length = rows
  cols : ∀ row ∈ m, row.length = cols

/-- A grid filled with one value has its shape by construction. -/
theorem shape_replicate (rows cols : Nat) (a : α) :
    Shape rows cols (List.replicate rows (List.replicate cols a)) where
  rows := List.length_replicate
  cols := by
    intro row hrow
    rw [List.eq_of_mem_replicate hrow]
    exact List.length_replicate

/-- A cell is read out of its row, and the row out of the grid. -/
theorem get?_eq_some : get? m p = some a ↔ ∃ row, m[p.1]? = some row ∧ row[p.2]? = some a := by
  unfold get?
  exact Option.bind_eq_some_iff

/-- A row number below `rows` has a row, of the full length. -/
theorem Shape.exists_row (h : Shape rows cols m) {g : Nat} (hg : g < rows) :
    ∃ row, m[g]? = some row ∧ row ∈ m ∧ row.length = cols := by
  have hlt : g < m.length := h.rows ▸ hg
  have hmem : m[g] ∈ m := List.getElem_mem hlt
  exact ⟨m[g], List.getElem?_eq_getElem hlt, hmem, h.cols _ hmem⟩

/-- Every position inside the shape has a cell. -/
theorem Shape.exists_cell (h : Shape rows cols m) (hg : p.1 < rows) (hi : p.2 < cols) :
    ∃ a, get? m p = some a := by
  obtain ⟨row, hrow, _, hlen⟩ := h.exists_row hg
  have hlt : p.2 < row.length := hlen ▸ hi
  exact ⟨row[p.2], get?_eq_some.mpr ⟨row, hrow, List.getElem?_eq_getElem hlt⟩⟩

/-- A position that has a cell is inside the shape. -/
theorem Shape.lt_of_get? (h : Shape rows cols m) (hp : get? m p = some a) :
    p.1 < rows ∧ p.2 < cols := by
  obtain ⟨row, hrow, hcell⟩ := get?_eq_some.mp hp
  obtain ⟨hg, _⟩ := List.getElem?_eq_some_iff.mp hrow
  obtain ⟨hi, _⟩ := List.getElem?_eq_some_iff.mp hcell
  have hlen : row.length = cols := h.cols row (List.mem_of_getElem? hrow)
  exact ⟨h.rows ▸ hg, hlen ▸ hi⟩

/-- Writing a cell moves no row and changes no length. -/
theorem Shape.put (h : Shape rows cols m) (p : Nat × Nat) (a : α) :
    Shape rows cols (put m p a) := by
  constructor
  · unfold Grid.put
    rw [List.length_modify]
    exact h.rows
  · intro row hrow
    obtain ⟨g, hg⟩ := List.mem_iff_getElem?.mp hrow
    unfold Grid.put at hg
    rw [List.getElem?_modify] at hg
    obtain ⟨old, hold, rfl⟩ := Option.map_eq_some_iff.mp hg
    have hlen : old.length = cols := h.cols old (List.mem_of_getElem? hold)
    split
    · rw [List.length_set]
      exact hlen
    · exact hlen

/-- Writing one cell changes that cell only: every other position reads as before. -/
theorem get?_put (hp : get? m p = some b) (a : α) (q : Nat × Nat) :
    get? (put m p a) q = if q = p then some a else get? m q := by
  obtain ⟨row, hrow, hcell⟩ := get?_eq_some.mp hp
  obtain ⟨hlt, _⟩ := List.getElem?_eq_some_iff.mp hcell
  unfold get? put
  by_cases hrows : p.1 = q.1
  · rw [← hrows, List.getElem?_modify_eq, hrow]
    show (row.set p.2 a)[q.2]? = if q = p then some a else row[q.2]?
    by_cases hcols : q.2 = p.2
    · rw [if_pos (Prod.ext hrows.symm hcols), hcols, List.getElem?_set_self hlt]
    · have hne : q ≠ p := fun h => hcols (congrArg Prod.snd h)
      rw [if_neg hne, List.getElem?_set_ne (Ne.symm hcols)]
  · have hne : q ≠ p := fun h => hrows (congrArg Prod.fst h).symm
    rw [if_neg hne, List.getElem?_modify_ne _ _ hrows]

/-! ## Counting cells -/

section Count

variable {f : α → Bool}

@[simp] theorem count_nil : count f ([] : List (List α)) = 0 := rfl

@[simp] theorem count_cons (row : List α) (m : List (List α)) :
    count f (row :: m) = row.countP f + count f m := by
  unfold count
  rw [List.map_cons, List.sum_cons]

/-- Replacing one element of a row moves the count of that row by the difference of the two. -/
theorem countP_set {row : List α} {i : Nat} (h : row[i]? = some b) (a : α) :
    (row.set i a).countP f + (f b).toNat = row.countP f + (f a).toNat := by
  induction row generalizing i with
  | nil => simp at h
  | cons x row ih =>
    cases i with
    | zero =>
      obtain rfl : x = b := by simpa using h
      rw [List.set_cons_zero, List.countP_cons, List.countP_cons]
      cases f x <;> cases f a <;> simp
    | succ i =>
      rw [List.getElem?_cons_succ] at h
      rw [List.set_cons_succ, List.countP_cons, List.countP_cons]
      have := ih h
      omega

/-- Writing a cell moves the count by the difference of the old and the new value. Stated as a sum
on both sides, so that no subtraction is cut off. -/
theorem count_put (h : get? m p = some b) (a : α) :
    count f (put m p a) + (f b).toNat = count f m + (f a).toNat := by
  obtain ⟨g, i⟩ := p
  obtain ⟨row, hrow, hcell⟩ := get?_eq_some.mp h
  clear h
  dsimp only at hrow hcell
  show count f (m.modify g (·.set i a)) + (f b).toNat = count f m + (f a).toNat
  induction m generalizing g with
  | nil => simp at hrow
  | cons x m ih =>
    cases g with
    | zero =>
      obtain rfl : x = row := by simpa using hrow
      have hset := countP_set (f := f) hcell a
      simp only [List.modify_zero_cons, count_cons]
      omega
    | succ g =>
      have htail : m[g]? = some row := by simpa using hrow
      have hrest := ih g htail
      simp only [List.modify_succ_cons, count_cons]
      omega

/-- A grid has a cell with the property if and only if one of its rows has one. -/
theorem count_pos_iff : 0 < count f m ↔ ∃ row ∈ m, 0 < row.countP f := by
  induction m with
  | nil => simp
  | cons row m ih =>
    rw [count_cons, List.exists_mem_cons_iff, ← ih]
    omega

/-- Cells with the property and cells without it fill the grid. -/
theorem Shape.count_add_count (h : Shape rows cols m) :
    count f m + count (fun a => !f a) m = rows * cols := by
  obtain ⟨rfl, hcols⟩ := h
  induction m with
  | nil => simp
  | cons row m ih =>
    rw [List.forall_mem_cons] at hcols
    have hrow := List.length_eq_countP_add_countP f (l := row)
    have hrest := ih hcols.2
    simp only [count_cons, List.length_cons, Nat.add_mul]
    simp only [hcols.1, Bool.not_eq_true, Bool.decide_eq_false] at hrow
    omega

/-- In a grid filled with a value that counts, every cell counts. -/
theorem count_replicate (ha : f a = true) :
    count f (List.replicate rows (List.replicate cols a)) = rows * cols := by
  induction rows with
  | zero => simp
  | succ rows ih =>
    rw [List.replicate_succ, count_cons, ih, List.countP_replicate, if_pos ha, Nat.add_mul]
    omega

end Count

/-! ## Writing many cells -/

/-- The grid with every cell of a list of positions replaced by one value. -/
def putAll (m : List (List α)) (ps : List (Nat × Nat)) (a : α) : List (List α) :=
  ps.foldl (fun m p => put m p a) m

section PutAll

variable {ps : List (Nat × Nat)} {f : α → Bool}

@[simp] theorem putAll_nil : putAll m [] a = m := rfl

@[simp] theorem putAll_cons : putAll m (p :: ps) a = putAll (put m p a) ps a := rfl

/-- Writing a last position more is writing the others and then that one. -/
theorem putAll_append_singleton : putAll m (ps ++ [p]) a = put (putAll m ps a) p a := by
  unfold putAll
  rw [List.foldl_append, List.foldl_cons, List.foldl_nil]

/-- Writing a list of positions keeps the shape. -/
theorem Shape.putAll (h : Shape rows cols m) (ps : List (Nat × Nat)) (a : α) :
    Shape rows cols (putAll m ps a) := by
  induction ps generalizing m with
  | nil => exact h
  | cons p ps ih => exact ih (h.put p a)

/-- After writing a list of positions these read as the new value and all others as before. -/
theorem get?_putAll (hps : ∀ p ∈ ps, ∃ b, get? m p = some b) (q : Nat × Nat) :
    get? (putAll m ps a) q = if q ∈ ps then some a else get? m q := by
  induction ps generalizing m with
  | nil => simp
  | cons p ps ih =>
    rw [List.forall_mem_cons] at hps
    obtain ⟨⟨b, hb⟩, hps⟩ := hps
    have hrest : ∀ r ∈ ps, ∃ c, get? (put m p a) r = some c := by
      intro r hr
      rw [get?_put hb]
      split
      · exact ⟨a, rfl⟩
      · exact hps r hr
    rw [putAll_cons, ih hrest, get?_put hb]
    by_cases hq : q ∈ ps
    · rw [if_pos hq, if_pos (List.mem_cons_of_mem p hq)]
    · rw [if_neg hq]
      by_cases hqp : q = p
      · rw [if_pos hqp, if_pos (hqp ▸ List.mem_cons_self)]
      · rw [if_neg hqp, if_neg (by simp [hqp, hq])]

/-- Each of the cells written stops counting, or starts to, according to the value that was there
and the new one. -/
theorem count_putAll {c : Bool} (hps : ps.Nodup)
    (hold : ∀ p ∈ ps, ∃ b, get? m p = some b ∧ f b = c) :
    count f (putAll m ps a) + ps.length * c.toNat = count f m + ps.length * (f a).toNat := by
  induction ps generalizing m with
  | nil => simp
  | cons p ps ih =>
    rw [List.nodup_cons] at hps
    rw [List.forall_mem_cons] at hold
    obtain ⟨⟨b, hb, hfb⟩, hold⟩ := hold
    -- the later cells are others
    have hrest : ∀ r ∈ ps, ∃ b, get? (put m p a) r = some b ∧ f b = c := by
      intro r hr
      have hne : r ≠ p := fun h => hps.1 (h ▸ hr)
      rw [get?_put hb, if_neg hne]
      exact hold r hr
    have hput := count_put (f := f) hb a
    have htail := ih hps.2 hrest
    rw [hfb] at hput
    rw [putAll_cons, List.length_cons, Nat.add_mul, Nat.add_mul, Nat.one_mul, Nat.one_mul]
    omega

/-- Cells that all counted and no longer do: the count loses as many as there are. -/
theorem count_putAll_add (hps : ps.Nodup) (hold : ∀ p ∈ ps, ∃ b, get? m p = some b ∧ f b = true)
    (ha : f a = false) : count f (putAll m ps a) + ps.length = count f m := by
  have hcount := count_putAll (a := a) hps hold
  simpa [ha] using hcount

/-- Cells that did not count and now do: the count gains as many as there are. -/
theorem count_putAll_sub (hps : ps.Nodup) (hold : ∀ p ∈ ps, ∃ b, get? m p = some b ∧ f b = false)
    (ha : f a = true) : count f (putAll m ps a) = count f m + ps.length := by
  have hcount := count_putAll (a := a) hps hold
  simpa [ha] using hcount

end PutAll

end OsLab.Grid
