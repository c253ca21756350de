import OsLab.Web.Request

/-!
# The first line of a request

What `readline` leaves in the buffer of `view_request`, in terms of the bytes that a client sends,
and the lines that `view_request` gets to the end with.

* **`lineBytes`**, **`Unended`**, **`received`** -- what gets into the buffer, when it is not ended
  there, and the bytes in front of which `strtok` starts.
* **`readInto_bytes`**, **`viewRequest_eq`** -- the buffer after `readline`, and the uri as the
  second token of its string.
* **`Finishes`**, **`Handled`** -- the call comes to its end, and the conditions on the bytes under
  which it does.
* **`finishes_iff`**, **`viewRequest_faults`** -- the two are the same, and the lines that read
  where there is nothing.
-/

namespace OsLab.Web

open Words

variable {stat : List UInt8 → Option Stat} {buff : Buffer} {input : List UInt8}

/-! ## What is received -/

/-- What of the input gets into a buffer: a line with its newline, as far as it fits. -/
def lineBytes (input : List UInt8) : List UInt8 :=
  (input.takeWhile (· ≠ newline) ++ (input.dropWhile (· ≠ newline)).take 1).take (maxBuf - 1)

/-- `readline` returns without ending the string. -/
def Unended (input : List UInt8) : Prop := input.length = 1 ∧ newline ∉ input

instance (input : List UInt8) : Decidable (Unended input) :=
  inferInstanceAs (Decidable (_ ∧ _))

/-- The bytes in front of which `strtok` starts: behind a string that is not ended stands what was
in the buffer. -/
def received (buff : Buffer) (input : List UInt8) : List UInt8 :=
  if Unended input then input ++ buff.bytes.drop 1 else lineBytes input ++ [0]

theorem lineBytes_append {line rest : List UInt8} (hline : newline ∉ line) :
    lineBytes (line ++ rest) = (line ++ (rest.takeWhile (· ≠ newline) ++
      (rest.dropWhile (· ≠ newline)).take 1)).take (maxBuf - 1) := by
  have hall : ∀ c ∈ line, (decide (c ≠ newline)) = true := by
    intro c hc
    have hne : c ≠ newline := fun heq => hline (heq ▸ hc)
    simpa using hne
  unfold lineBytes
  rw [List.takeWhile_append_of_pos hall, List.dropWhile_append_of_pos hall, List.append_assoc]

/-- Without a newline all of the input is stored, as far as it fits. -/
theorem lineBytes_of_not_mem (hline : newline ∉ input) (hroom : input.length < maxBuf - 1) :
    lineBytes input = input := by
  have happend := @lineBytes_append input [] hline
  rw [List.append_nil] at happend
  rw [happend]
  simp only [List.takeWhile_nil, List.dropWhile_nil, List.take_nil, List.append_nil]
  exact List.take_of_length_le (Nat.le_of_lt hroom)

/-- What is stored is a line with its newline, as far as it fits. -/
theorem Reads.stored_eq {r : ReadLine} (h : Reads (maxBuf - 1) 0 input r) :
    r.stored = lineBytes input := by
  cases h with
  | @line line rest hline hroom =>
    rw [lineBytes_append hline, List.takeWhile_cons_of_neg (by simp),
      List.dropWhile_cons_of_neg (by simp), List.nil_append, List.take_succ_cons, List.take_zero]
    refine (List.take_of_length_le ?_).symm
    rw [List.length_append]
    exact hroom
  | full hline hroom =>
    rw [lineBytes_append hline, ← hroom, List.take_left]
  | eof hline hroom hmore => exact (lineBytes_of_not_mem hline hroom).symm
  | lost hline hroom hone => exact (lineBytes_of_not_mem hline hroom).symm

/-- The string is ended except for a single byte in front of the end of the stream. -/
theorem Reads.terminated_iff {r : ReadLine} (h : Reads (maxBuf - 1) 0 input r) :
    r.terminated = true ↔ ¬ Unended input := by
  cases h with
  | line hline hroom =>
    refine iff_of_true rfl ?_
    intro hlost
    exact hlost.2 (by simp)
  | full hline hroom =>
    refine iff_of_true rfl ?_
    intro hlost
    have hlength := hlost.1
    rw [List.length_append, hroom] at hlength
    have hmax : maxBuf - 1 = 8191 := rfl
    omega
  | eof hline hroom hmore =>
    refine iff_of_true rfl ?_
    intro hlost
    exact hmore ((Nat.zero_add _).trans hlost.1)
  | lost hline hroom hone =>
    refine iff_of_false (fun h => by cases h) ?_
    intro hnot
    exact hnot ⟨(Nat.zero_add _).symm.trans hone, hline⟩

/-- A first line that fits is received whole, whatever comes behind it. -/
theorem received_first (buff : Buffer) {line : List UInt8} (rest : List UInt8)
    (hline : newline ∉ line) (hroom : line.length < maxBuf - 1) :
    received buff (line ++ newline :: rest) = line ++ [newline] ++ [0] := by
  have hended : ¬ Unended (line ++ newline :: rest) := fun h => h.2 (by simp)
  unfold received
  rw [if_neg hended, lineBytes_append hline, List.takeWhile_cons_of_neg (by simp),
    List.dropWhile_cons_of_neg (by simp), List.nil_append, List.take_succ_cons, List.take_zero,
    List.take_of_length_le]
  rw [List.length_append]
  exact hroom

/-- A line with its newline is received whole when it fits. -/
theorem received_line (buff : Buffer) {line : List UInt8} (hline : newline ∉ line)
    (hroom : line.length < maxBuf - 1) :
    received buff (line ++ [newline]) = line ++ [newline] ++ [0] :=
  received_first buff [] hline hroom

/-- What is received stands at the start of the buffer, with old bytes behind its `'\0'`. -/
theorem readInto_bytes (buff : Buffer) (input : List UInt8) : ∃ old,
    (readInto buff input).bytes = received buff input ++ old ∧
      (Unended input → old = []) := by
  have hreads := readline_reads maxBuf input
  have hstored := hreads.stored_eq
  have hterminated := hreads.terminated_iff
  unfold readInto received ReadLine.written
  dsimp only
  by_cases hun : Unended input
  · have hnot : ¬ (readline maxBuf input).terminated = true := fun h => hterminated.mp h hun
    rw [if_neg hnot, if_pos hun, hstored, lineBytes_of_not_mem hun.2 (by rw [hun.1]; decide), hun.1]
    exact ⟨[], (List.append_nil _).symm, fun _ => rfl⟩
  · rw [if_pos (hterminated.mpr hun), if_neg hun, hstored]
    exact ⟨_, rfl, fun h => absurd h hun⟩

/-- The buffer holds a string if there is a `'\0'` in what is received. -/
theorem readInto_string_of_mem (h : 0 ∈ received buff input) : ∃ line,
    (readInto buff input).string = .ok line ∧
      line.bytes = (received buff input).takeWhile (· ≠ 0) := by
  obtain ⟨old, hbytes, _⟩ := readInto_bytes buff input
  have hmem : 0 ∈ (readInto buff input).bytes := by
    rw [hbytes]
    exact List.mem_append_left _ h
  unfold Buffer.string
  rw [dif_pos hmem]
  refine ⟨_, rfl, ?_⟩
  dsimp only
  rw [hbytes, List.takeWhile_append, if_neg]
  intro hlength
  -- the string ends in front of the 0
  rw [← (List.takeWhile_prefix _).eq_of_length hlength] at h
  simpa using List.mem_takeWhile_imp h

/-- Otherwise the string goes on behind the buffer. -/
theorem readInto_string_of_not_mem (h : 0 ∉ received buff input) :
    (readInto buff input).string = .error .unterminated := by
  obtain ⟨old, hbytes, hold⟩ := readInto_bytes buff input
  have hun : Unended input := by
    by_contra hun
    unfold received at h
    rw [if_neg hun] at h
    exact h (by simp)
  unfold Buffer.string
  refine dif_neg ?_
  rw [hbytes, hold hun, List.append_nil]
  exact h

/-! ## Viewing a line -/

/-- The uri is the second token. -/
theorem viewRequest_eq (stat : List UInt8 → Option Stat) {line : CString}
    (hline : (readInto buff input).string = .ok line) :
    ∃ token token2, viewRequest stat buff input =
      requestParseUri (words space line.bytes)[1]? >>= viewParsed stat token token2 := by
  have huri : (words space line.bytes)[1]? = (strtok (strtok line.bytes).2).1 := by
    rw [strtok_fst, words_strtok, List.head?_tail]
  refine ⟨(strtok line.bytes).1, (strtok (strtok (strtok line.bytes).2).2).1, ?_⟩
  unfold viewRequest
  rw [hline, huri]
  rfl

/-- A token in front of it and a space keep the uri two bytes below the line. -/
theorem uri_length {s uri : List UInt8} (h : (words space s)[1]? = some uri) :
    uri ≠ [] ∧ uri.length + 2 ≤ s.length := by
  have hwords : (words space s).flatten.length + (words space s).length ≤ s.length + 1 :=
    length_words_le s
  have hne : ∀ w ∈ words space s, w ≠ [] := fun w hw => ne_nil_of_mem_words hw
  generalize words space s = ws at h hwords hne
  cases ws with
  | nil => cases h
  | cons method ws =>
    cases ws with
    | nil => cases h
    | cons second rest =>
      cases h
      -- the method has a byte
      have hmethod := List.length_pos_of_ne_nil (hne method List.mem_cons_self)
      refine ⟨hne uri (List.mem_cons_of_mem _ List.mem_cons_self), ?_⟩
      simp only [List.flatten_cons, List.length_append, List.length_cons] at hwords
      omega

/-- `view_request` and `request_parse_uri` come to their end with 0 or -1. -/
def Finishes (stat : List UInt8 → Option Stat) (buff : Buffer) (input : List UInt8) : Prop :=
  ∃ rc viewed, viewRequest stat buff input = .ok (rc, viewed) ∧ (rc = 0 ∨ rc = -1)

/-- The bytes hold a string whose second token is `uri`, something is left of `uri` when its
arguments are cut off, and its file name fits a buffer, with an error page around it if there is no
such file. -/
structure Handled (stat : List UInt8 → Option Stat) (bytes uri : List UInt8) : Prop where
  ended : 0 ∈ bytes
  second : (words space (bytes.takeWhile (· ≠ 0)))[1]? = some uri
  path : ¬ (uri.head? = some questionMark ∧ dotCgi <:+: uri)
  fits : (fileName (uriPath uri)).length +
    (if stat (fileName (uriPath uri)) = none then 157 else 0) < maxBuf

/-- What a run does on a line with a second token. -/
theorem viewRequest_of_second (stat : List UInt8 → Option Stat) {uri : List UInt8}
    (hended : 0 ∈ received buff input)
    (hsecond : (words space ((received buff input).takeWhile (· ≠ 0)))[1]? = some uri) :
    ∃ token token2, viewRequest stat buff input =
      requestParseUri (some uri) >>= viewParsed stat token token2 := by
  obtain ⟨line, hline, hbytes⟩ := readInto_string_of_mem hended
  obtain ⟨token, token2, heq⟩ := viewRequest_eq stat hline
  rw [hbytes, hsecond] at heq
  exact ⟨token, token2, heq⟩

/-- So the uri is not empty and fits its buffer, with a byte to spare. -/
theorem uri_fits {uri : List UInt8} (hended : 0 ∈ received buff input)
    (hsecond : (words space ((received buff input).takeWhile (· ≠ 0)))[1]? = some uri) :
    uri ≠ [] ∧ uri.length + 1 < maxBuf := by
  obtain ⟨line, hline, hbytes⟩ := readInto_string_of_mem hended
  obtain ⟨hne, hlength⟩ := uri_length hsecond
  have hfits := line.fits
  rw [hbytes] at hfits
  exact ⟨hne, by omega⟩

/-- Without a second token `strstr` gets NULL. -/
theorem viewRequest_nullUri (stat : List UInt8 → Option Stat) (hended : 0 ∈ received buff input)
    (hsecond : (words space ((received buff input).takeWhile (· ≠ 0)))[1]? = none) :
    viewRequest stat buff input = .error .nullUri := by
  obtain ⟨line, hline, hbytes⟩ := readInto_string_of_mem hended
  obtain ⟨token, token2, heq⟩ := viewRequest_eq stat hline
  rw [heq, hbytes, hsecond]
  rfl

/-- A run that comes to its end has a second token. -/
theorem second_of_ok {result : Int × Viewed} (h : viewRequest stat buff input = .ok result) :
    0 ∈ received buff input ∧
      ∃ uri, (words space ((received buff input).takeWhile (· ≠ 0)))[1]? = some uri := by
  by_cases hended : 0 ∈ received buff input
  · refine ⟨hended, Option.ne_none_iff_exists'.mp ?_⟩
    intro hsecond
    rw [viewRequest_nullUri stat hended hsecond] at h
    cases h
  · unfold viewRequest at h
    rw [readInto_string_of_not_mem hended] at h
    cases h

/-- Under the conditions the call comes to its end. -/
theorem Handled.finishes {uri : List UInt8} (h : Handled stat (received buff input) uri) :
    Finishes stat buff input := by
  obtain ⟨token, token2, heq⟩ := viewRequest_of_second stat h.ended h.second
  obtain ⟨hne, huri⟩ := uri_fits h.ended h.second
  have hpath : uriPath uri ≠ [] := fun hnil => h.path ((uriPath_eq_nil_iff hne).mp hnil)
  have hfits := h.fits
  obtain ⟨parsed, hparse, hfilename, _⟩ := requestParseUri_ok huri hpath (by omega)
  rw [← hfilename] at hfits
  unfold Finishes
  rw [heq, hparse]
  cases hstat : stat parsed.filename.bytes with
  | none =>
    -- the error page is sent
    rw [hstat, if_pos rfl] at hfits
    obtain ⟨viewed, hview⟩ := viewParsed_missing token token2 hstat hfits
    exact ⟨-1, viewed, hview, .inr rfl⟩
  | some sbuff =>
    obtain ⟨viewed, hview, _⟩ := viewParsed_found token token2 hstat
    exact ⟨0, viewed, hview, .inl rfl⟩

/-- And only under them. -/
theorem Finishes.handled (h : Finishes stat buff input) :
    ∃ uri, Handled stat (received buff input) uri := by
  obtain ⟨rc, viewed, hok, _⟩ := h
  obtain ⟨hended, uri, hsecond⟩ := second_of_ok hok
  obtain ⟨token, token2, heq⟩ := viewRequest_of_second stat hended hsecond
  obtain ⟨hne, huri⟩ := uri_fits hended hsecond
  rw [heq] at hok
  have hpath : uriPath uri ≠ [] := by
    intro hnil
    rw [requestParseUri_beforeUri huri hnil] at hok
    cases hok
  have hshort : (fileName (uriPath uri)).length < maxBuf := by
    by_contra hlong
    rw [requestParseUri_overflow huri hpath (Nat.le_of_not_lt hlong)] at hok
    cases hok
  refine ⟨uri, hended, hsecond, fun hmark => hpath ((uriPath_eq_nil_iff hne).mpr hmark), ?_⟩
  split
  · -- without such a file, the page around its name has to fit too
    next hstat =>
    by_contra hlong
    obtain ⟨parsed, hparse, hfilename, _⟩ := requestParseUri_ok huri hpath hshort
    rw [hparse] at hok
    rw [← hfilename] at hstat hlong
    have hview : viewParsed stat token token2 parsed = .ok (rc, viewed) := hok
    rw [viewParsed_overflow token token2 hstat (Nat.le_of_not_lt hlong)] at hview
    cases hview
  · exact hshort

/-- **Which lines are handled.** A first line is handled exactly when it has a uri to make a file
name of, and room for it. -/
theorem finishes_iff (stat : List UInt8 → Option Stat) (buff : Buffer) (input : List UInt8) :
    Finishes stat buff input ↔ ∃ uri, Handled stat (received buff input) uri :=
  ⟨Finishes.handled, fun ⟨_, h⟩ => h.finishes⟩

def zeroBuffer : Buffer := ⟨List.replicate maxBuf 0, List.length_replicate⟩

/-- With no token or one, `strstr` gets NULL; with the uri `"?x.cgi"`, `uri[-1]` is read. -/
theorem viewRequest_faults : ¬ Finishes (fun _ => none) zeroBuffer [] ∧
    viewRequest (fun _ => none) zeroBuffer (ascii "GET\n") = .error .nullUri ∧
    viewRequest (fun _ => none) zeroBuffer (ascii "GET ?x.cgi HTTP/1.0\n") =
      .error .beforeUri := by
  refine ⟨?_, viewRequest_nullUri _ (by decide) (by decide), ?_⟩
  · intro h
    obtain ⟨uri, hhandled⟩ := h.handled
    exact absurd hhandled.second (by simp [received, Unended, lineBytes])
  · have hended : 0 ∈ received zeroBuffer (ascii "GET ?x.cgi HTTP/1.0\n") := by decide
    have hsecond : (words space ((received zeroBuffer (ascii "GET ?x.cgi HTTP/1.0\n")).takeWhile
        (· ≠ 0)))[1]? = some (ascii "?x.cgi") := by decide
    obtain ⟨token, token2, heq⟩ := viewRequest_of_second (fun _ => none) hended hsecond
    rw [heq, requestParseUri_beforeUri (by decide) (by decide)]
    rfl

end OsLab.Web
