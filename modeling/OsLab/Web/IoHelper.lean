import Mathlib.Data.List.Basic
import Mathlib.Data.List.TakeWhile

/-!
# Reading lines

`readline` of `io_helper.c` on the bytes that are still to come from a descriptor, with the end of
the file behind them. A buffer is shorter than an `int` can count.

* **`readline`**, **`readLoop`** -- the function and its loop. At the end of the file it returns 0
  if one byte has been read, and does not end the string then.
* **`Reads`**, **`readLoop_reads`** -- the ways a call ends: with a line, with the buffer full, with
  the end of the file.
* **`LinesFit`** -- no line leaves just its newline behind a full buffer, and the last one not a
  single byte.
-/

namespace OsLab.Web

/-- `'\n'` -/
def newline : UInt8 := 10

/-- A call of `readline`: the bytes it has stored in the buffer, whether it has ended them with
`'\0'`, what it returns, and the bytes that are left. -/
structure ReadLine where
  stored : List UInt8
  terminated : Bool
  count : Nat
  rest : List UInt8
  deriving DecidableEq

/-- The loop of `readline` when `n` bytes have been counted and `room` more fit. -/
def readLoop : Nat → Nat → List UInt8 → ReadLine
  | 0, n, input => ⟨[], true, n, input⟩
  | _ + 1, n, [] =>
    if n = 1 then
      ⟨[], false, 0, []⟩
    else
      ⟨[], true, n, []⟩
  | room + 1, n, c :: input =>
    if c = newline then
      ⟨[c], true, n, input⟩
    else
      let r := readLoop room (n + 1) input
      { r with stored := c :: r.stored }

def readline (maxlen : Nat) (input : List UInt8) : ReadLine := readLoop (maxlen - 1) 0 input

/-- The string in the buffer. -/
def ReadLine.string (r : ReadLine) : List UInt8 := r.stored.takeWhile (· ≠ 0)

/-! ## How a call ends -/

/-- The three ways a call ends: with a line, with the buffer full, with the end of the file. -/
inductive Reads (room n : Nat) : List UInt8 → ReadLine → Prop where
  | line {line rest : List UInt8} (hline : newline ∉ line) (hroom : line.length < room) :
      Reads room n (line ++ newline :: rest) ⟨line ++ [newline], true, n + line.length, rest⟩
  | full {line rest : List UInt8} (hline : newline ∉ line) (hroom : line.length = room) :
      Reads room n (line ++ rest) ⟨line, true, n + line.length, rest⟩
  | eof {line : List UInt8} (hline : newline ∉ line) (hroom : line.length < room)
      (hmore : n + line.length ≠ 1) : Reads room n line ⟨line, true, n + line.length, []⟩
  | lost {line : List UInt8} (hline : newline ∉ line) (hroom : line.length < room)
      (hone : n + line.length = 1) : Reads room n line ⟨line, false, 0, []⟩

variable {room n m : Nat} {input : List UInt8} {c : UInt8} {r : ReadLine}

/-- One byte that is not a newline goes in front. -/
theorem Reads.cons (h : Reads room (n + 1) input r) (hc : c ≠ newline) :
    Reads (room + 1) n (c :: input) { r with stored := c :: r.stored } := by
  have hnot : ∀ {line : List UInt8}, newline ∉ line → newline ∉ c :: line := by
    intro line hline hmem
    rcases List.mem_cons.mp hmem with heq | hin
    · exact hc heq.symm
    · exact hline hin
  have hcount : ∀ line : List UInt8, n + 1 + line.length = n + (c :: line).length := by
    intro line
    rw [List.length_cons]
    omega
  cases h with
  | @line line rest hline hroom =>
    rw [hcount]
    exact .line (hnot hline) (Nat.succ_lt_succ hroom)
  | @full line rest hline hroom =>
    rw [hcount]
    exact .full (hnot hline) (congrArg (· + 1) hroom)
  | eof hline hroom hmore =>
    rw [hcount] at hmore ⊢
    exact .eof (hnot hline) (Nat.succ_lt_succ hroom) hmore
  | lost hline hroom hone =>
    rw [hcount] at hone
    exact .lost (hnot hline) (Nat.succ_lt_succ hroom) hone

/-- Every call ends in one of these ways; by induction on the input. -/
theorem readLoop_reads (room n : Nat) (input : List UInt8) :
    Reads room n input (readLoop room n input) := by
  induction room generalizing n input with
  | zero => exact .full List.not_mem_nil rfl
  | succ room ih =>
    cases input with
    | nil =>
      unfold readLoop
      split
      · exact .lost List.not_mem_nil (Nat.succ_pos room) ‹n = 1›
      · exact .eof List.not_mem_nil (Nat.succ_pos room) ‹¬ n = 1›
    | cons c input =>
      unfold readLoop
      by_cases hc : c = newline
      · rw [if_pos hc, hc]
        exact .line List.not_mem_nil (Nat.succ_pos room)
      · rw [if_neg hc]
        exact (ih (n + 1) input).cons hc

theorem readline_reads (maxlen : Nat) (input : List UInt8) :
    Reads (maxlen - 1) 0 input (readline maxlen input) :=
  readLoop_reads (maxlen - 1) 0 input

/-- A call that returns more than 0 has taken at least one byte. -/
theorem Reads.rest_lt (h : Reads room 0 input r) (hcount : 0 < r.count) :
    r.rest.length < input.length := by
  cases h with
  | line hline hroom =>
    dsimp only
    rw [List.length_append, List.length_cons]
    omega
  | full hline hroom =>
    dsimp only at hcount ⊢
    rw [List.length_append]
    omega
  | eof hline hroom hmore =>
    dsimp only at hcount ⊢
    rw [List.length_nil]
    omega
  | lost hline hroom hone => cases hcount

/-- A call that returns more than 0 has ended its string. -/
theorem Reads.terminated_of_pos (h : Reads room n input r) (hcount : 0 < r.count) :
    r.terminated = true := by
  cases h with
  | line hline hroom => rfl
  | full hline hroom => rfl
  | eof hline hroom hmore => rfl
  | lost hline hroom hone => cases hcount

/-- What is stored and what is left are the input. -/
theorem Reads.stored_append (h : Reads room n input r) : r.stored ++ r.rest = input := by
  cases h with
  | line hline hroom => simp
  | full hline hroom => rfl
  | eof hline hroom hmore => exact List.append_nil _
  | lost hline hroom hone => exact List.append_nil _

theorem ReadLine.string_eq (h : 0 ∉ r.stored) : r.string = r.stored := by
  unfold ReadLine.string
  rw [List.takeWhile_eq_self_iff]
  intro c hc
  have hne : c ≠ 0 := fun heq => h (heq ▸ hc)
  simpa using hne

/-- A line that leaves room for its newline is read whole. -/
theorem readLoop_line {line : List UInt8} (rest : List UInt8) (hline : newline ∉ line)
    (hroom : line.length < room) : readLoop room n (line ++ newline :: rest) =
      ⟨line ++ [newline], true, n + line.length, rest⟩ := by
  induction line generalizing room n with
  | nil =>
    cases room with
    | zero => cases hroom
    | succ room => rfl
  | cons c line ih =>
    rw [List.mem_cons, not_or] at hline
    cases room with
    | zero => cases hroom
    | succ room =>
      rw [List.cons_append, readLoop, if_neg (Ne.symm hline.1),
        ih hline.2 (Nat.lt_of_succ_lt_succ hroom), List.length_cons]
      simp only [List.cons_append, ReadLine.mk.injEq, true_and, and_true]
      omega

/-! ## Lines -/

/-- No line ends just behind a full buffer of `m` bytes, and what follows the last newline does not
leave a single byte behind full buffers. -/
def LinesFit (m : Nat) (input : List UInt8) : Prop :=
  (∀ line ∈ (input.splitOn newline).dropLast, line.length % m ≠ 0) ∧
    ∀ last ∈ (input.splitOn newline).getLast?, last.length % m ≠ 1

instance (m : Nat) (input : List UInt8) : Decidable (LinesFit m input) :=
  inferInstanceAs (Decidable (_ ∧ _))

/-- Lines fit if the first one does and the others do. -/
theorem linesFit_line {line rest : List UInt8} (hline : newline ∉ line) :
    LinesFit m (line ++ newline :: rest) ↔ line.length % m ≠ 0 ∧ LinesFit m rest := by
  obtain ⟨first, others, hsplit⟩ := List.exists_cons_of_ne_nil (List.splitOn_ne_nil newline rest)
  unfold LinesFit
  rw [List.splitOn_append_cons_self_of_not_mem hline, hsplit, List.dropLast_cons_cons,
    List.getLast?_cons_cons, List.forall_mem_cons, and_assoc]

/-- What follows the last newline must not leave a single byte behind full buffers. -/
theorem linesFit_last {line : List UInt8} (hline : newline ∉ line) :
    LinesFit m line ↔ line.length % m ≠ 1 := by
  unfold LinesFit
  rw [List.splitOn_eq_singleton hline]
  simp

theorem splitOn_append {line rest : List UInt8} (hline : newline ∉ line) :
    (line ++ rest).splitOn newline = (rest.splitOn newline).modifyHead (line ++ ·) := by
  induction line with
  | nil =>
    obtain ⟨first, others, hsplit⟩ := List.exists_cons_of_ne_nil (List.splitOn_ne_nil newline rest)
    rw [List.nil_append, hsplit]
    rfl
  | cons c line ih =>
    rw [List.mem_cons, not_or] at hline
    have hc : ¬ (c == newline) = true := fun heq => hline.1 (LawfulBEq.eq_of_beq heq).symm
    rw [List.cons_append, List.splitOn_cons_eq_if_modifyHead, if_neg hc, ih hline.2,
      List.modifyHead_modifyHead]
    rfl

/-- A full buffer does not matter. -/
theorem linesFit_full {line rest : List UInt8} (hline : newline ∉ line) (hm : line.length = m) :
    LinesFit m (line ++ rest) ↔ LinesFit m rest := by
  obtain ⟨first, others, hsplit⟩ := List.exists_cons_of_ne_nil (List.splitOn_ne_nil newline rest)
  have hmod : (line ++ first).length % m = first.length % m := by
    rw [List.length_append, hm, Nat.add_mod_left]
  unfold LinesFit
  rw [splitOn_append hline, hsplit, List.modifyHead_cons]
  cases others with
  | nil =>
    rw [List.length_append] at hmod
    simp [hmod]
  | cons second others =>
    rw [List.dropLast_cons_cons, List.dropLast_cons_cons, List.getLast?_cons_cons,
      List.getLast?_cons_cons, List.forall_mem_cons, List.forall_mem_cons, hmod]

end OsLab.Web
