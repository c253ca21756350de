import Mathlib.Data.Nat.Basic
import Mathlib.Data.Set.Function
import Mathlib.Order.Interval.Set.Defs
import Mathlib.Tactic.Ring

/-!
# Striped layouts

A striped layout cuts a linear address space into chunks, deals the chunks out row by row over a
fixed number of columns, and lets every row choose which device each of its columns lives on. All
that such a layout needs to lose nothing and to overlap nothing is that no row puts two of its
columns on one device; this module proves that once, for an arbitrary choice of devices.

* **`Grid`** -- the shape, with the coordinates of an address: `row`, `col` and `off`. They
  determine the address (`addr_coords`), and every choice of coordinates is that of an address.
* **`filled`** -- how many addresses below `n` lie in a column. `filled_col` and `filled_succ` say
  that the addresses of a column come in order, one after the other, which is what makes sequential
  access sequential on each device.
* **`place`** -- the physical place of an address. `place_injective` and `exists_place_iff` say when
  places differ and which places are hit.
-/

namespace OsLab.Striping

/-- The shape of a striped address space: `chunk` addresses to a chunk, `cols` chunks to a row. -/
structure Grid where
  chunk : Nat
  cols : Nat
  chunk_pos : 0 < chunk
  cols_pos : 0 < cols

namespace Grid

variable (g : Grid)

/-- The row an address lies in. -/
def row (b : Nat) : Nat := b / g.chunk / g.cols

/-- The column an address lies in. -/
def col (b : Nat) : Nat := b / g.chunk % g.cols

/-- The position of an address inside its chunk. -/
def off (b : Nat) : Nat := b % g.chunk

/-- The address at a given row, column and position. -/
def addr (row col off : Nat) : Nat := (row * g.cols + col) * g.chunk + off

theorem col_lt (b : Nat) : g.col b < g.cols := Nat.mod_lt _ g.cols_pos

theorem off_lt (b : Nat) : g.off b < g.chunk := Nat.mod_lt _ g.chunk_pos

/-- An address is determined by its three coordinates, so the coordinates lose nothing. -/
theorem addr_coords (b : Nat) : g.addr (g.row b) (g.col b) (g.off b) = b := by
  unfold addr row col off
  rw [Nat.div_add_mod', Nat.div_add_mod']

section Coordinates

variable {g} {r c o : Nat}

/-- The chunk that an address lies in counts the chunks of the rows before and those of the columns
before. -/
theorem addr_div_chunk (ho : o < g.chunk) : g.addr r c o / g.chunk = r * g.cols + c := by
  unfold addr
  rw [Nat.add_comm, Nat.add_mul_div_right _ _ g.chunk_pos, Nat.div_eq_of_lt ho, Nat.zero_add]

/-- The row of the address with given coordinates is the given one. -/
theorem row_addr (hc : c < g.cols) (ho : o < g.chunk) : g.row (g.addr r c o) = r := by
  unfold row
  rw [addr_div_chunk ho, Nat.add_comm, Nat.add_mul_div_right _ _ g.cols_pos,
    Nat.div_eq_of_lt hc, Nat.zero_add]

/-- The column of the address with given coordinates is the given one. -/
theorem col_addr (hc : c < g.cols) (ho : o < g.chunk) : g.col (g.addr r c o) = c := by
  unfold col
  rw [addr_div_chunk ho, Nat.add_comm, Nat.add_mul_mod_self_right, Nat.mod_eq_of_lt hc]

/-- The position of the address with given coordinates is the given one. -/
theorem off_addr (ho : o < g.chunk) : g.off (g.addr r c o) = o := by
  unfold off addr
  rw [Nat.add_comm, Nat.add_mul_mod_self_right, Nat.mod_eq_of_lt ho]

end Coordinates

/-- Rows are consecutive runs of `cols * chunk` addresses, which is how a program finds the row of a
request. -/
theorem row_eq_iff (b r : Nat) :
    g.row b = r ↔ r * (g.cols * g.chunk) ≤ b ∧ b < r * (g.cols * g.chunk) + g.cols * g.chunk := by
  unfold row
  rw [Nat.div_div_eq_div_mul, Nat.mul_comm g.chunk, Nat.div_eq_iff (Nat.mul_pos g.cols_pos g.chunk_pos)]
  have hpos := Nat.mul_pos g.cols_pos g.chunk_pos
  omega

/-- Whole rows are runs of addresses: `n` of them from `first` on are `n * cols * chunk`
addresses. -/
theorem row_mem_iff (b first n : Nat) :
    first * (g.cols * g.chunk) ≤ b ∧ b < (first + n) * (g.cols * g.chunk) ↔
      first ≤ g.row b ∧ g.row b < first + n := by
  have hpos := Nat.mul_pos g.cols_pos g.chunk_pos
  unfold row
  rw [Nat.div_div_eq_div_mul, Nat.mul_comm g.chunk, Nat.le_div_iff_mul_le hpos,
    Nat.div_lt_iff_lt_mul hpos]

/-! ## Filling up -/

/-- The addresses below `n` that lie in column `c`. -/
def filled (n c : Nat) : Nat :=
  g.row n * g.chunk + if c < g.col n then g.chunk else if c = g.col n then g.off n else 0

theorem filled_zero (c : Nat) : g.filled 0 c = 0 := by simp [filled, row, col, off]

/-- The next address is the first of its column that is still missing. -/
theorem filled_col (n : Nat) : g.filled n (g.col n) = g.row n * g.chunk + g.off n := by
  simp [filled]

/-- Inside a chunk the next address is at the next position. -/
theorem addr_add_one (r c o : Nat) : g.addr r c o + 1 = g.addr r c (o + 1) := by
  unfold addr
  omega

/-- Behind a chunk comes the first position of the next column. -/
theorem addr_chunk (r c : Nat) : g.addr r c g.chunk = g.addr r (c + 1) 0 := by
  unfold addr
  ring

/-- Behind the last column comes the first one of the next row. -/
theorem addr_cols (r : Nat) : g.addr r g.cols 0 = g.addr (r + 1) 0 0 := by
  unfold addr
  ring

/-- One more address fills its column by one and no other. The cases are the next position in the
chunk, the next column and the next row. -/
theorem filled_succ (n : Nat) {c : Nat} (hc : c < g.cols) :
    g.filled (n + 1) c = g.filled n c + if c = g.col n then 1 else 0 := by
  have hcol := g.col_lt n
  have hoff := g.off_lt n
  have hn : n + 1 = g.addr (g.row n) (g.col n) (g.off n + 1) := by
    rw [← addr_add_one, addr_coords]
  rw [hn]
  unfold filled
  rcases Nat.lt_or_ge (g.off n + 1) g.chunk with hin | hlast
  · rw [row_addr hcol hin, col_addr hcol hin, off_addr hin]
    split_ifs <;> omega
  · have hchunk : g.off n + 1 = g.chunk := by omega
    rw [hchunk, addr_chunk]
    rcases Nat.lt_or_ge (g.col n + 1) g.cols with hnext | hend
    · rw [row_addr hnext g.chunk_pos, col_addr hnext g.chunk_pos, off_addr g.chunk_pos]
      split_ifs <;> omega
    · have hcols : g.col n + 1 = g.cols := by omega
      rw [hcols, addr_cols, row_addr g.cols_pos g.chunk_pos, col_addr g.cols_pos g.chunk_pos,
        off_addr g.chunk_pos, Nat.add_mul, Nat.one_mul]
      split_ifs <;> omega

/-- Columns further left are never behind: they are filled first in each row. -/
theorem filled_mono (n : Nat) {c c' : Nat} (h : c ≤ c') : g.filled n c' ≤ g.filled n c := by
  have hoff := g.off_lt n
  unfold filled
  split_ifs <;> omega

/-! ## Placing columns on devices -/

variable (device : Nat → Nat → Nat)

/-- The physical place of an address: the device its row picks for its column, and the offset
that the row and the position inside the chunk give it there. -/
def place (b : Nat) : Nat × Nat := (device (g.row b) (g.col b), g.row b * g.chunk + g.off b)

/-- The physical offset alone tells the row and the position inside the chunk; only the column needs
the device. -/
theorem place_snd_div (b : Nat) : (g.place device b).2 / g.chunk = g.row b := by
  have hlt := g.off_lt b
  unfold place
  rw [Nat.add_comm, Nat.add_mul_div_right _ _ g.chunk_pos, Nat.div_eq_of_lt hlt, Nat.zero_add]

/-- The position inside a chunk is the same on the device as in the address space. -/
theorem place_snd_mod (b : Nat) : (g.place device b).2 % g.chunk = g.off b := by
  have hlt := g.off_lt b
  unfold place
  rw [Nat.add_comm, Nat.add_mul_mod_self_right, Nat.mod_eq_of_lt hlt]

variable {device}

/-- Two addresses at one place are the same address, when no row doubles up a device. -/
theorem place_injective (hinj : ∀ r, Set.InjOn (device r) (Set.Iio g.cols)) :
    Function.Injective (g.place device) := by
  intro a b hab
  have hrow : g.row a = g.row b := by
    rw [← g.place_snd_div device a, ← g.place_snd_div device b, hab]
  have hoff : g.off a = g.off b := by
    rw [← g.place_snd_mod device a, ← g.place_snd_mod device b, hab]
  have hdev : device (g.row a) (g.col a) = device (g.row a) (g.col b) := by
    have hfst := congrArg Prod.fst hab
    simpa [place, hrow] using hfst
  have hcol : g.col a = g.col b := hinj (g.row a) (g.col_lt a) (g.col_lt b) hdev
  rw [← g.addr_coords a, ← g.addr_coords b, hrow, hcol, hoff]

/-- A place is hit exactly when its row puts some column on its device; the other places of the row
are free for parity. -/
theorem exists_place_iff (d o : Nat) :
    (∃ b, g.place device b = (d, o)) ↔ ∃ c < g.cols, device (o / g.chunk) c = d := by
  constructor
  · rintro ⟨b, hb⟩
    refine ⟨g.col b, g.col_lt b, ?_⟩
    have hrow : o / g.chunk = g.row b := by rw [← g.place_snd_div device b, hb]
    rw [hrow]
    exact congrArg Prod.fst hb
  · rintro ⟨c, hc, hd⟩
    have ho : o % g.chunk < g.chunk := Nat.mod_lt _ g.chunk_pos
    refine ⟨g.addr (o / g.chunk) c (o % g.chunk), ?_⟩
    unfold place
    rw [row_addr hc ho, col_addr hc ho, off_addr ho, hd, Nat.div_add_mod']

end Grid

end OsLab.Striping
