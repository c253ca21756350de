import OsLab.Web.FirstLine

/-!
# Strings that fit

Which requests put a string that is too long in a buffer: the file name decides, with the text of
the error page around it if one is sent.

* **`StringsFit`** -- nothing is written behind the end of a buffer, by either function.
* **`handlePage`**, **`pageAround`** -- the bytes of the page around the file name, by what `stat`
  answers.
* **`requestHandle_overflow_iff`**, **`viewParsed_fits_iff`** -- the two functions.
* **`stringsFit_iff`**, **`longLine_overflow`** -- the exact condition, and a line that fails it by
  one byte.
-/

namespace OsLab.Web

open Words

variable {stat stat' : List UInt8 → Option Stat} {buff : Buffer} {input uri : List UInt8}
  {parsed : Parsed} {c : Viewed}

/-- Neither `view_request` nor `request_handle` on what it has viewed writes a string behind the end
of its buffer. -/
structure StringsFit (stat stat' : List UInt8 → Option Stat) (buff : Buffer) (input : List UInt8) :
    Prop where
  view : viewRequest stat buff input ≠ .error .overflow
  handle : ∀ c, viewRequest stat buff input = .ok (0, c) →
    requestHandle stat' c ≠ .error .overflow

/-- The bytes around the file name in the page that `request_handle` sends, 0 if it sends none. -/
def handlePage (stat : List UInt8 → Option Stat) (filename : List UInt8) (dynamic : Int32)
    (mode : UInt32) : Nat :=
  match stat filename with
  | none => 171
  | some _ =>
    if dynamic = 1 then
      if !isReg mode || !isReadable mode then 171 else 0
    else
      if !isReg mode || !isExecutable mode then 177 else 0

/-- The bytes around the file name in the page that is sent for a file, 0 if none is sent. `stat`
answers `view_request` and `stat'` answers `request_handle`. -/
def pageAround (stat stat' : List UInt8 → Option Stat) (filename : List UInt8) (dynamic : Int32) :
    Nat :=
  match stat filename with
  | none => 157
  | some sbuff => handlePage stat' filename dynamic sbuff.mode

/-- No page has more than 177 bytes around the file name. -/
theorem pageAround_le (stat stat' : List UInt8 → Option Stat) (filename : List UInt8)
    (dynamic : Int32) : pageAround stat stat' filename dynamic ≤ 177 := by
  unfold pageAround handlePage
  split
  · decide
  · split
    · decide
    · split <;> split <;> decide

/-- A page overflows exactly if the file name and the texts around it do not fit. -/
theorem refused_iff {errnum shortmsg longmsg : String} {cause : CString} {k : Nat}
    (hstatus : (statusLine errnum shortmsg).length < maxBuf)
    (htexts : 128 + errnum.length + shortmsg.length + longmsg.length = k) :
    Response.error <$> requestError cause errnum shortmsg longmsg = .error .overflow ↔
      maxBuf ≤ cause.bytes.length + k := by
  rw [← requestError_overflow_iff hstatus htexts]
  cases requestError cause errnum shortmsg longmsg with
  | error fault => exact ⟨fun h => by cases h; rfl, fun h => by cases h; rfl⟩
  | ok strings => exact iff_of_false (fun h => by cases h) (fun h => by cases h)

/-- A file that is served needs no page. -/
theorem served_iff {response : Response} {cause : CString} :
    (.ok response : Except Fault Response) = .error .overflow ↔
      maxBuf ≤ cause.bytes.length + 0 :=
  iff_of_false (fun h => by cases h) (Nat.not_le_of_lt cause.fits)

/-- `request_handle` overflows exactly if the page that it sends does. -/
theorem requestHandle_overflow_iff : requestHandle stat c = .error .overflow ↔
    maxBuf ≤ c.filename.bytes.length + handlePage stat c.filename.bytes c.dynamic c.mode := by
  unfold requestHandle handlePage
  cases stat c.filename.bytes with
  | none =>
    dsimp only
    exact refused_iff (by decide) (by decide)
  | some sbuf =>
    dsimp only
    by_cases hdynamic : c.dynamic = 1
    · rw [if_pos hdynamic, if_pos hdynamic]
      split
      · exact refused_iff (by decide) (by decide)
      · exact served_iff
    · rw [if_neg hdynamic, if_neg hdynamic]
      split
      · exact refused_iff (by decide) (by decide)
      · exact served_iff

/-- What `view_request` hands on is what it has parsed. -/
theorem viewParsed_fits_iff (token token2 : Option (List UInt8)) :
    (viewParsed stat token token2 parsed ≠ .error .overflow ∧
      ∀ c, viewParsed stat token token2 parsed = .ok (0, c) →
        requestHandle stat' c ≠ .error .overflow) ↔
    parsed.filename.bytes.length + pageAround stat stat' parsed.filename.bytes parsed.dynamic <
      maxBuf := by
  unfold pageAround
  cases hstat : stat parsed.filename.bytes with
  | none =>
    dsimp only
    rcases Nat.lt_or_ge (parsed.filename.bytes.length + 157) maxBuf with hfits | hlong
    · obtain ⟨viewed, hview⟩ := viewParsed_missing token token2 hstat hfits
      rw [hview]
      -- -1 is returned, so nothing is handed on
      refine iff_of_true ⟨fun h => ?_, fun c h => ?_⟩ hfits
      · cases h
      · cases h
    · rw [viewParsed_overflow token token2 hstat hlong]
      exact iff_of_false (fun h => h.1 rfl) (Nat.not_lt_of_le hlong)
  | some sbuff =>
    dsimp only
    obtain ⟨viewed, hview, hparsed, hmode⟩ := viewParsed_found token token2 hstat
    rw [hview, ← Nat.not_le, ← hmode, ← hparsed, ← requestHandle_overflow_iff]
    constructor
    · intro h
      exact h.2 viewed rfl
    · intro h
      refine ⟨fun hover => ?_, fun c hc => ?_⟩
      · cases hover
      · cases hc
        exact h

/-- **Which strings fit.** Exactly the file names with room for the page around them. -/
theorem stringsFit_iff (stat stat' : List UInt8 → Option Stat) (buff : Buffer)
    (input uri : List UInt8) (hended : 0 ∈ received buff input)
    (huri : (words space ((received buff input).takeWhile (· ≠ 0)))[1]? = some uri) :
    StringsFit stat stat' buff input ↔ (fileName (uriPath uri)).length +
      pageAround stat stat' (fileName (uriPath uri)) (parseCgi uri).1 < maxBuf := by
  obtain ⟨token, token2, heq⟩ := viewRequest_of_second stat hended huri
  obtain ⟨hne, hlength⟩ := uri_fits hended huri
  have hview : StringsFit stat stat' buff input ↔
      (viewRequest stat buff input ≠ .error .overflow ∧
        ∀ c, viewRequest stat buff input = .ok (0, c) →
          requestHandle stat' c ≠ .error .overflow) :=
    ⟨fun h => ⟨h.view, h.handle⟩, fun h => ⟨h.1, h.2⟩⟩
  rw [hview, heq]
  by_cases hpath : uriPath uri = []
  · -- "." in a page is short
    rw [requestParseUri_beforeUri hlength hpath, hpath]
    have hpage := pageAround_le stat stat' (fileName []) (parseCgi uri).1
    have hdot : (fileName []).length = 1 := by decide
    have hmax : maxBuf = 8192 := rfl
    refine iff_of_true ⟨fun h => ?_, fun c h => ?_⟩ (by omega)
    · cases h
    · cases h
  · rcases Nat.lt_or_ge (fileName (uriPath uri)).length maxBuf with hfits | hlong
    · obtain ⟨parsed, hparse, hfilename, hdynamic⟩ := requestParseUri_ok hlength hpath hfits
      rw [hparse, ok_bind, ← hfilename, ← hdynamic]
      exact viewParsed_fits_iff token token2
    · rw [requestParseUri_overflow hlength hpath hlong]
      exact iff_of_false (fun h => h.1 rfl) (by omega)

/-- `"GET / HTTP/1.0\n"` where there is no file. -/
theorem stringsFit_iff_slash :
    StringsFit (fun _ => none) (fun _ => none) zeroBuffer (ascii "GET / HTTP/1.0\n") :=
  (stringsFit_iff (fun _ => none) (fun _ => none) zeroBuffer (ascii "GET / HTTP/1.0\n") [slash]
    (by decide) (by decide)).mpr (by decide)

/-- `"/aaa...a"` with `n` times `'a'`. -/
def longUri (n : Nat) : List UInt8 := slash :: List.replicate n 97

def longLine (n : Nat) : List UInt8 :=
  ascii "GET" ++ space :: (longUri n ++ space :: ascii "HTTP/1.0")

theorem not_mem_longLine {c : UInt8} (hc : c = newline ∨ c = 0) (n : Nat) : c ∉ longLine n := by
  have hends : c ∉ ascii "GET" ∧ c ≠ space ∧ c ≠ slash ∧ c ≠ 97 ∧ c ∉ ascii "HTTP/1.0" := by
    rcases hc with rfl | rfl
    · decide
    · decide
  obtain ⟨hget, hspace, hslash, ha, hversion⟩ := hends
  unfold longLine longUri
  simp only [List.mem_append, List.mem_cons, List.mem_replicate, not_or]
  exact ⟨hget, hspace, ⟨hslash, fun h => ha h.2⟩, hspace, hversion⟩

theorem length_longLine (n : Nat) : (longLine n).length = n + 14 := by
  have hends : (ascii "GET").length = 3 ∧ (ascii "HTTP/1.0").length = 8 := by decide
  unfold longLine longUri
  rw [List.length_append, List.length_cons, List.length_append, List.length_cons, List.length_cons,
    List.length_replicate]
  omega

theorem words_longLine (n : Nat) :
    (words space (longLine n ++ [newline]))[1]? = some (longUri n) := by
  have hsplit : longLine n ++ [newline] =
      ascii "GET" ++ space :: (longUri n ++ space :: (ascii "HTTP/1.0" ++ [newline])) := by
    unfold longLine
    rw [List.append_assoc, List.cons_append, List.append_assoc, List.cons_append]
  have huri : space ∉ longUri n := by
    unfold longUri
    simp only [List.mem_cons, List.mem_replicate, not_or]
    exact ⟨by decide, fun h => absurd h.2 (by decide)⟩
  have hget : space ∉ ascii "GET" := by decide
  rw [hsplit, words_append hget (by decide), words_append huri (List.cons_ne_nil _ _)]
  rfl

theorem uriPath_longUri (n : Nat) : uriPath (longUri n) = longUri n := by
  have hcgi : ¬ dotCgi <:+: longUri n := by
    intro hinfix
    have hdot : 46 ∈ longUri n := hinfix.subset (by decide)
    unfold longUri at hdot
    simp only [List.mem_cons, List.mem_replicate] at hdot
    rcases hdot with hslash | ⟨_, ha⟩
    · exact absurd hslash (by decide)
    · exact absurd ha (by decide)
  unfold uriPath parseCgi
  rw [if_neg hcgi]

theorem length_fileName_longUri {n : Nat} (hn : 0 < n) :
    (fileName (uriPath (longUri n))).length = n + 2 := by
  have hindex : indexHtml (longUri n) = [] := by
    unfold indexHtml longUri
    refine if_neg ?_
    rw [List.getLast?_cons, List.getLast?_replicate, if_neg (Nat.pos_iff_ne_zero.mp hn)]
    show some (97 : UInt8) ≠ some slash
    decide
  have hdot : (ascii ".").length = 1 := by decide
  rw [uriPath_longUri]
  unfold fileName
  rw [hindex, List.append_nil, List.length_append, hdot]
  unfold longUri
  rw [List.length_cons, List.length_replicate]
  omega

/-- A line that fits is received with its uri. -/
theorem received_longLine (buff : Buffer) {n : Nat} (hn : n + 15 < maxBuf) :
    0 ∈ received buff (longLine n ++ [newline]) ∧
      (words space ((received buff (longLine n ++ [newline])).takeWhile (· ≠ 0)))[1]? =
        some (longUri n) := by
  have hreceived : received buff (longLine n ++ [newline]) = longLine n ++ [newline] ++ [0] := by
    refine received_line buff (not_mem_longLine (.inl rfl) n) ?_
    rw [length_longLine]
    omega
  have hall : ∀ c ∈ longLine n ++ [newline], decide (c ≠ 0) = true := by
    intro c hc
    rcases List.mem_append.mp hc with hline | hend
    · have hne : c ≠ 0 := fun h => not_mem_longLine (.inr rfl) n (h ▸ hline)
      simpa using hne
    · rw [List.mem_singleton.mp hend]
      decide
  constructor
  · rw [hreceived]
    exact List.mem_append_right _ (List.mem_singleton_self _)
  · rw [hreceived, List.takeWhile_append_of_pos hall, List.takeWhile_cons_of_neg (by decide),
      List.append_nil, words_longLine]

/-- Where no file is found, the page for `"/aaa...a"` does not fit from some length on. -/
theorem viewRequest_longLine (buff : Buffer) {n : Nat} (hn : n + 15 < maxBuf)
    (hlong : maxBuf ≤ n + 159) :
    viewRequest (fun _ => none) buff (longLine n ++ [newline]) = .error .overflow := by
  obtain ⟨hended, hsecond⟩ := received_longLine buff hn
  obtain ⟨token, token2, heq⟩ := viewRequest_of_second (fun _ => none) hended hsecond
  have hmax : maxBuf = 8192 := rfl
  have hname : (fileName (uriPath (longUri n))).length = n + 2 := length_fileName_longUri (by omega)
  have huri : (longUri n).length = n + 1 := by
    unfold longUri
    rw [List.length_cons, List.length_replicate]
  have hpath : uriPath (longUri n) ≠ [] := by
    rw [uriPath_longUri]
    exact List.cons_ne_nil _ _
  obtain ⟨parsed, hparse, hfilename, _⟩ := requestParseUri_ok (by omega) hpath (by omega)
  have hview : viewParsed (fun _ => none) token token2 parsed = .error .overflow := by
    refine viewParsed_overflow token token2 rfl ?_
    rw [hfilename]
    omega
  rw [heq, hparse, ok_bind]
  exact hview

/-- With 8033 times `'a'`, the page is one byte too long. -/
theorem longLine_overflow : 0 ∈ received zeroBuffer (longLine 8033 ++ [newline]) ∧
    (words space ((received zeroBuffer (longLine 8033 ++ [newline])).takeWhile (· ≠ 0)))[1]? =
      some (longUri 8033) ∧
    ¬ StringsFit (fun _ => none) (fun _ => none) zeroBuffer (longLine 8033 ++ [newline]) := by
  obtain ⟨hended, hsecond⟩ := received_longLine zeroBuffer (n := 8033) (by decide)
  refine ⟨hended, hsecond, ?_⟩
  intro h
  exact h.view (viewRequest_longLine zeroBuffer (by decide) (by decide))

end OsLab.Web
