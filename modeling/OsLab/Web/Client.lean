import OsLab.Web.IoHelper
import OsLab.Web.Queue

/-!
# The web client

Callers of `readline` go on while it returns more than 0. It returns 0 for a line that begins just
behind a full buffer and has only its newline left, and for a single byte in front of the end.

* **`readAll`**, **`printHeader`**, **`printBody`**, **`clientPrint`** -- a loop over `readline`,
  and the two loops of `client_print`.
* **`LosesNothing`**, **`iff_linesFit`** -- what a loop over `readline` is for, and the induction on
  its calls.
* **`printBody_iff`**, **`losesNothing_iff`** -- the second loop prints everything, and any such
  loop reads everything, exactly where the lines fit.
* **`HeaderEnds`**, **`printHeader_lines`** -- the first loop on a header of lines that fit.
* **`losesNothing_iff_linesFit`** -- both together.
-/

namespace OsLab.Web

/-- The calls of `readline` up to the first that returns 0. -/
def readAll (maxlen : Nat) (input : List UInt8) : List ReadLine :=
  if _ : 0 < (readline maxlen input).count then
    readline maxlen input :: readAll maxlen (readline maxlen input).rest
  else
    [readline maxlen input]
termination_by input.length
decreasing_by exact (readline_reads maxlen input).rest_lt ‹_›

/-- `"\r\n"` -/
def emptyLine : List UInt8 := [13, 10]

/-- `"Header: "` -/
def headerLabel : List UInt8 := [72, 101, 97, 100, 101, 114, 58, 32]

/-- The first loop of `client_print`: what it prints, whether an empty line has ended it, and the
bytes that are left. -/
structure Header where
  printed : List UInt8
  empty : Bool
  rest : List UInt8

def printHeader (input : List UInt8) : Header :=
  let r := readline maxBuf input
  if _ : r.string ≠ emptyLine ∧ 0 < r.count then
    let header := printHeader r.rest
    { header with printed := headerLabel ++ r.string ++ header.printed }
  else
    ⟨[], r.terminated && r.string = emptyLine, r.rest⟩
termination_by input.length
decreasing_by exact (readline_reads maxBuf input).rest_lt (And.right ‹_›)

/-- The second loop of `client_print`. -/
def printBody (input : List UInt8) : List UInt8 :=
  let r := readline maxBuf input
  if _ : 0 < r.count then
    r.string ++ printBody r.rest
  else
    []
termination_by input.length
decreasing_by exact (readline_reads maxBuf input).rest_lt ‹_›

/-- What `client_print` prints of a response. -/
def clientPrint (response : List UInt8) : List UInt8 :=
  let header := printHeader response
  header.printed ++ printBody header.rest

variable {maxlen : Nat} {input response body : List UInt8}

/-! ## Reading on -/

/-- A call that returns more than 0 is followed by the others. -/
theorem readAll_of_pos (h : 0 < (readline maxlen input).count) : readAll maxlen input =
    readline maxlen input :: readAll maxlen (readline maxlen input).rest := by
  rw [readAll, dif_pos h]

theorem readAll_of_zero (h : (readline maxlen input).count = 0) :
    readAll maxlen input = [readline maxlen input] := by
  rw [readAll, dif_neg (by omega)]

/-- The second loop prints a line and goes on while `readline` returns more than 0. -/
theorem printBody_of_pos (h : 0 < (readline maxBuf input).count) : printBody input =
    (readline maxBuf input).string ++ printBody (readline maxBuf input).rest := by
  rw [printBody]
  exact dif_pos h

theorem printBody_of_zero (h : (readline maxBuf input).count = 0) : printBody input = [] := by
  rw [printBody]
  exact dif_neg (by omega)

/-- Without a NUL in the stream the string is all that was stored. -/
theorem readline_string (hnul : 0 ∉ input) :
    (readline maxlen input).string = (readline maxlen input).stored := by
  apply ReadLine.string_eq
  intro hmem
  rw [← (readline_reads maxlen input).stored_append] at hnul
  exact hnul (List.mem_append_left _ hmem)

/-- The strings are the whole stream, and 0 is returned at its end only. -/
structure LosesNothing (maxlen : Nat) (input : List UInt8) : Prop where
  terminated : ∀ r ∈ readAll maxlen input, r.terminated = true
  whole : ((readAll maxlen input).map ReadLine.string).flatten = input
  zero : ∀ r ∈ readAll maxlen input, r.count = 0 → r.stored = [] ∧ r.rest = []

/-- A call that returns more than 0 leaves the question to the rest. -/
theorem losesNothing_of_pos (hnul : 0 ∉ input) (hcount : 0 < (readline maxlen input).count) :
    LosesNothing maxlen input ↔ LosesNothing maxlen (readline maxlen input).rest := by
  have hall := readAll_of_pos hcount
  have happend := (readline_reads maxlen input).stored_append
  have hstring : (readline maxlen input).string = _ := readline_string hnul
  have hterminated := (readline_reads maxlen input).terminated_of_pos hcount
  constructor
  · rintro ⟨hterm, hwhole, hzero⟩
    rw [hall] at hterm hwhole hzero
    rw [List.map_cons, List.flatten_cons, hstring] at hwhole
    refine ⟨fun r hr => hterm r (List.mem_cons_of_mem _ hr), ?_,
      fun r hr => hzero r (List.mem_cons_of_mem _ hr)⟩
    exact List.append_cancel_left (hwhole.trans happend.symm)
  · rintro ⟨hterm, hwhole, hzero⟩
    constructor
    · rw [hall, List.forall_mem_cons]
      exact ⟨hterminated, hterm⟩
    · rw [hall, List.map_cons, List.flatten_cons, hstring, hwhole, happend]
    · rw [hall, List.forall_mem_cons]
      exact ⟨fun hzero => by omega, hzero⟩

theorem linesFit_nil (m : Nat) : LinesFit m [] := by
  rw [linesFit_last List.not_mem_nil, List.length_nil, Nat.zero_mod]
  exact Nat.zero_ne_one

/-- What holds of no bytes, what a call that returns more than 0 leaves to the rest, and what fails
where a call returns 0 for bytes it has taken, is that lines fit. By induction on the calls, each of
which is one of the four kinds. -/
theorem iff_linesFit {P : List UInt8 → Prop} (hmax : 2 ≤ maxlen) (hnil : P [])
    (hnext : ∀ input, 0 ∉ input → 0 < (readline maxlen input).count →
      (P input ↔ P (readline maxlen input).rest))
    (hzero : ∀ input, (readline maxlen input).count = 0 → (readline maxlen input).stored ≠ [] →
      ¬ P input) (hnul : 0 ∉ input) : P input ↔ LinesFit (maxlen - 1) input := by
  induction hlength : input.length using Nat.strong_induction_on generalizing input with
  | _ k ih =>
  subst hlength
  have hreads := readline_reads maxlen input
  have hstep : 0 < (readline maxlen input).count →
      (P input ↔ LinesFit (maxlen - 1) (readline maxlen input).rest) := by
    intro hcount
    rw [hnext input hnul hcount]
    refine ih _ (hreads.rest_lt hcount) (fun hmem => hnul ?_) rfl
    rw [← hreads.stored_append]
    exact List.mem_append_right _ hmem
  have hnone := hzero input
  generalize readline maxlen input = r at hreads hstep hnone
  cases hreads with
  | @line line rest hline hroom =>
    rw [linesFit_line hline, Nat.mod_eq_of_lt hroom]
    rcases Nat.eq_zero_or_pos line.length with hempty | hpos
    · -- a newline alone is stored, and 0 is returned
      refine iff_of_false (hnone ((Nat.zero_add _).trans hempty) (by simp)) ?_
      intro hfit
      exact hfit.1 hempty
    · rw [hstep (by dsimp only; omega)]
      exact ⟨fun h => ⟨by omega, h⟩, And.right⟩
  | @full line rest hline hroom =>
    -- the line goes on in the next call
    rw [linesFit_full hline hroom]
    exact hstep (by dsimp only; omega)
  | eof hline hroom hmore =>
    rw [linesFit_last hline, Nat.mod_eq_of_lt hroom]
    refine iff_of_true ?_ (by omega)
    rcases Nat.eq_zero_or_pos input.length with hempty | hpos
    · rw [List.length_eq_zero_iff.mp hempty]
      exact hnil
    · exact (hstep (by dsimp only; omega)).mpr (linesFit_nil _)
  | lost hline hroom hone =>
    -- the end behind one byte
    rw [linesFit_last hline, Nat.mod_eq_of_lt hroom]
    refine iff_of_false (hnone rfl ?_) (by omega)
    intro hempty
    dsimp only at hempty
    rw [hempty] at hone
    cases hone

theorem losesNothing_nil (hmax : 2 ≤ maxlen) : LosesNothing maxlen [] := by
  obtain ⟨room, hroom⟩ : ∃ room, maxlen - 1 = room + 1 := ⟨maxlen - 2, by omega⟩
  have hread : readline maxlen [] = ⟨[], true, 0, []⟩ := by
    unfold readline
    rw [hroom]
    rfl
  have hall : readAll maxlen [] = [⟨[], true, 0, []⟩] := by
    rw [readAll_of_zero (by rw [hread]), hread]
  constructor
  · rw [hall]
    simp
  · rw [hall]
    rfl
  · rw [hall]
    simp

/-- The calls of `readline` lose nothing exactly where the lines fit the buffer. -/
theorem losesNothing_iff (hmax : 2 ≤ maxlen) (hnul : 0 ∉ input) :
    LosesNothing maxlen input ↔ LinesFit (maxlen - 1) input := by
  refine iff_linesFit hmax (losesNothing_nil hmax)
    (fun input hnul hcount => losesNothing_of_pos hnul hcount) ?_ hnul
  intro input hcount hstored h
  have hall := readAll_of_zero hcount
  have hlast := h.zero (readline maxlen input)
  rw [hall] at hlast
  exact hstored (hlast (List.mem_singleton_self _) hcount).1

/-! ## The body -/

/-- `client_print` prints `body` whole. -/
theorem printBody_iff (hnul : 0 ∉ body) : printBody body = body ↔ LinesFit (maxBuf - 1) body := by
  refine iff_linesFit (P := fun body => printBody body = body) (by decide) ?_ ?_ ?_ hnul
  · exact printBody_of_zero rfl
  · intro body hnul hcount
    have happend := (readline_reads maxBuf body).stored_append
    rw [printBody_of_pos hcount, readline_string hnul]
    constructor
    · intro h
      exact List.append_cancel_left (h.trans happend.symm)
    · intro h
      rw [h, happend]
  · intro body hcount hstored h
    rw [printBody_of_zero hcount] at h
    have happend := (readline_reads maxBuf body).stored_append
    rw [← h] at happend hstored
    exact hstored (List.append_eq_nil_iff.mp happend).1

/-- `body` is what the empty line behind the header leaves. -/
structure HeaderEnds (response body : List UInt8) : Prop where
  empty : (printHeader response).empty = true
  rest : (printHeader response).rest = body

/-- The first loop ends with an empty line, or with a call that returns 0. -/
theorem printHeader_stop (h : ¬ ((readline maxBuf input).string ≠ emptyLine ∧
    0 < (readline maxBuf input).count)) : printHeader input =
      ⟨[], (readline maxBuf input).terminated && (readline maxBuf input).string = emptyLine,
        (readline maxBuf input).rest⟩ := by
  rw [printHeader]
  exact dif_neg h

/-- Any other line is printed behind the label, and the loop goes on. -/
theorem printHeader_next (h : (readline maxBuf input).string ≠ emptyLine ∧
    0 < (readline maxBuf input).count) : printHeader input =
      { printHeader (readline maxBuf input).rest with
        printed := headerLabel ++ (readline maxBuf input).string ++
          (printHeader (readline maxBuf input).rest).printed } := by
  rw [printHeader]
  exact dif_pos h

/-- A line of a header without its newline: not empty and shorter than the buffer. -/
structure HeaderLine (line : List UInt8) : Prop where
  noNewline : newline ∉ line
  noNul : 0 ∉ line
  short : line.length < maxBuf - 1
  nonempty : line ≠ []
  notEmptyLine : line ++ [newline] ≠ emptyLine

/-- Lines with their newlines. -/
def endLines (lines : List (List UInt8)) : List UInt8 := lines.flatMap (· ++ [newline])

/-- What the client prints for the lines of a header. -/
def labelled (lines : List (List UInt8)) : List UInt8 :=
  lines.flatMap (headerLabel ++ · ++ [newline])

/-- Whatever the body, the first loop prints a header of such lines and stops behind its empty
line. -/
theorem printHeader_lines {lines : List (List UInt8)} (hlines : ∀ line ∈ lines, HeaderLine line)
    (body : List UInt8) :
    printHeader (endLines lines ++ emptyLine ++ body) = ⟨labelled lines, true, body⟩ := by
  induction lines with
  -- The empty line ends the loop, and `readline` has not looked behind it.
  | nil =>
    have hread : readline maxBuf (emptyLine ++ body) = ⟨emptyLine, true, 1, body⟩ :=
      @readLoop_line (maxBuf - 1) 0 [13] body (by decide) (by decide)
    have hcond : ¬ ((readline maxBuf (emptyLine ++ body)).string ≠ emptyLine ∧
        0 < (readline maxBuf (emptyLine ++ body)).count) := by
      rw [hread]
      exact fun h => h.1 rfl
    have hstop := printHeader_stop hcond
    rw [hread] at hstop
    exact hstop
  | cons line lines ih =>
    rw [List.forall_mem_cons] at hlines
    obtain ⟨hline, hlines⟩ := hlines
    unfold endLines labelled
    rw [List.flatMap_cons, List.flatMap_cons, List.append_assoc, List.append_assoc,
      List.append_assoc]
    generalize hrest : lines.flatMap (· ++ [newline]) ++ (emptyLine ++ body) = rest
    specialize ih hlines
    unfold endLines at ih
    rw [List.append_assoc, hrest] at ih
    have hread : readline maxBuf (line ++ newline :: rest) =
        ⟨line ++ [newline], true, 0 + line.length, rest⟩ :=
      readLoop_line rest hline.noNewline hline.short
    have hstring : (readline maxBuf (line ++ newline :: rest)).string = line ++ [newline] := by
      rw [hread]
      apply ReadLine.string_eq
      intro hmem
      rcases List.mem_append.mp hmem with hin | hin
      · exact hline.noNul hin
      · exact absurd hin (by decide)
    -- A line of the header is not the empty one, and makes `readline` return more than 0.
    have hcond : (readline maxBuf (line ++ newline :: rest)).string ≠ emptyLine ∧
        0 < (readline maxBuf (line ++ newline :: rest)).count := by
      have hpos := List.length_pos_of_ne_nil hline.nonempty
      rw [hstring, hread]
      exact ⟨hline.notEmptyLine, by dsimp only; omega⟩
    have hnext := printHeader_next hcond
    rw [hstring, hread, ih, ← List.append_assoc] at hnext
    exact hnext

/-- Whatever the body, a header of such lines ends at its empty line. -/
theorem headerEnds_of_lines {lines : List (List UInt8)} (hlines : ∀ line ∈ lines, HeaderLine line)
    (body : List UInt8) :
    HeaderEnds (lines.flatMap (· ++ [newline]) ++ emptyLine ++ body) body := by
  have hheader := printHeader_lines hlines body
  constructor
  · exact congrArg Header.empty hheader
  · exact congrArg Header.rest hheader

/-- Behind a header that ends, the body is printed whole exactly where its lines fit. -/
theorem clientPrint_iff (hheader : HeaderEnds response body) (hbody : 0 ∉ body) :
    clientPrint response = (printHeader response).printed ++ body ↔ LinesFit (maxBuf - 1) body := by
  rw [← printBody_iff hbody]
  unfold clientPrint
  dsimp only
  rw [hheader.rest]
  exact List.append_right_inj _

/-- **When nothing is lost.** The calls lose nothing, and the client prints the body, exactly where
the lines fit. -/
theorem losesNothing_iff_linesFit (maxlen : Nat) (input response body : List UInt8)
    (hmax : 2 ≤ maxlen) (hinput : 0 ∉ input) (hheader : HeaderEnds response body)
    (hbody : 0 ∉ body) : (LosesNothing maxlen input ↔ LinesFit (maxlen - 1) input) ∧
      (clientPrint response = (printHeader response).printed ++ body ↔
        LinesFit (maxBuf - 1) body) :=
  ⟨losesNothing_iff hmax hinput, clientPrint_iff hheader hbody⟩

/-- `"<p>\n"` after the header `"OK\r\n"` and its empty line. -/
theorem losesNothing_iff_linesFit_ok : LosesNothing 3 [60, 112, 62, 10] ∧
    clientPrint [79, 75, 13, 10, 13, 10, 60, 112, 62, 10] =
      (printHeader [79, 75, 13, 10, 13, 10, 60, 112, 62, 10]).printed ++ [60, 112, 62, 10] := by
  have hlines : ∀ line ∈ [[79, 75, 13]], HeaderLine line := by
    intro line hline
    rw [List.mem_singleton.mp hline]
    exact ⟨by decide, by decide, by decide, by decide, by decide⟩
  have h := losesNothing_iff_linesFit 3 [60, 112, 62, 10] _ _ (by decide) (by decide)
    (headerEnds_of_lines hlines [60, 112, 62, 10]) (by decide)
  exact ⟨h.1.mpr (by decide), h.2.mpr (by decide)⟩

/-- The blank line in `"a\n\nb\n"` makes `readline` return 0: `"b\n"` is lost. A single `"a"` in
front of the end is not even a string. -/
theorem blankLine_lost : ¬ LosesNothing maxBuf [97, 10, 10, 98, 10] ∧ ¬ LosesNothing maxBuf [97] ∧
    HeaderEnds [13, 10, 97, 10, 10, 98, 10] [97, 10, 10, 98, 10] ∧
    clientPrint [13, 10, 97, 10, 10, 98, 10] ≠
      (printHeader [13, 10, 97, 10, 10, 98, 10]).printed ++ [97, 10, 10, 98, 10] := by
  have hheader : HeaderEnds [13, 10, 97, 10, 10, 98, 10] [97, 10, 10, 98, 10] :=
    @headerEnds_of_lines [] (List.forall_mem_nil _) [97, 10, 10, 98, 10]
  refine ⟨?_, ?_, hheader, ?_⟩
  · rw [losesNothing_iff (by decide) (by decide)]
    decide
  · rw [losesNothing_iff (by decide) (by decide)]
    decide
  · rw [Ne, clientPrint_iff hheader (by decide)]
    decide

end OsLab.Web
