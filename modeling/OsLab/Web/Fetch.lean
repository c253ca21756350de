import Mathlib.Algebra.Order.Ring.Nat
import OsLab.Web.Access
import OsLab.Web.Client

/-!
# Fetching a file

A request from its first line to what the client prints: `view_request`, `request_handle` and the
serving of the file in the server, `client_print` in the client. The files stay as they are
meanwhile.

* **`Socket`** -- what the system does for the two programs: how much one `write(2)` of the server
  takes, and what the client can read once the server has closed. Both are parameters.
  `Socket.Writes` and `Socket.Keeps` are what results about the bytes sent and about the bytes
  printed assume of them.
* **`serve`** -- the bytes that the server writes for a request, of which it reads the first line
  only.
* **`fetch`** -- what `client_print` prints of the stream that it gets.
* **`fetch_shown`** -- which page or file is written and printed, for every name that the client can
  ask for, and when a file comes through whole.

`write_or_die` asserts only that `write` has not failed. It calls it once, so the part of a file
that this call does not take is never sent.
-/

namespace OsLab.Web

open Words

/-! ## The server -/

/-- A file. The contents count for regular files only. -/
structure File where
  mode : UInt32
  /-- The server may open the file for reading. -/
  opens : Bool
  contents : List UInt8
  size : contents.length < 2 ^ 63

def File.stat (file : File) : Stat := ⟨Int64.ofNat file.contents.length, file.mode⟩

abbrev Files := List UInt8 → Option File

def Files.stat (files : Files) (filename : List UInt8) : Option Stat := (files filename).map File.stat

/-- The header of `request_serve_static`. -/
def staticHeader (filesize : Int32) (filetype : List UInt8) : List UInt8 :=
  ascii "HTTP/1.0 200 OK\r\n" ++
  ascii "Server: OSTEP WebServer\r\n" ++
  ascii "Content-Length: " ++ ascii (Int.repr filesize.toInt) ++ ascii "\r\n" ++
  ascii "Content-Type: " ++ filetype ++ ascii "\r\n\r\n"

/-- What the programs leave to the system. `write` is the part of its bytes that one `write(2)` of
the server takes, and `stream` what the client can read of the bytes that the server has sent. -/
structure Socket where
  write : List UInt8 → List UInt8
  stream : List UInt8 → List UInt8

/-- The most bytes that one `write(2)` takes. -/
def maxWrite : Nat := 0x7ffff000

/-- A write does not fail, and takes all of its bytes up to `maxWrite` of them. -/
def Socket.Writes (socket : Socket) : Prop := ∀ bytes, socket.write bytes = bytes.take maxWrite

/-- Everything that has been sent can be read after the server's `close`. This is so when the client
has sent one line: the server reads no further, and a `close` with unread lines resets the
connection, whereby the client can lose bytes or its `readline` can fail. -/
def Socket.Keeps (socket : Socket) : Prop := ∀ bytes, socket.stream bytes = bytes

/-- The bytes that go to the client; `none` when an assertion of `io_helper.h` stops the server. -/
def requestServeStatic (socket : Socket) (files : Files) (c : Viewed) :
    Except Fault (Option (List UInt8)) :=
  let filetype := requestGetFiletype c.filename.bytes
  match files c.filename.bytes with
  | none => .ok none
  | some file =>
    -- mmap takes neither 0 bytes nor as many as a negative int makes of a size_t
    if file.opens && 0 < c.filesize then do
      let header ← store (staticHeader c.filesize filetype.bytes)
      return some (socket.write header.bytes ++
        socket.write (file.contents.take c.filesize.toInt.toNat))
    else
      .ok none

/-- `request_serve_dynamic`. `cgi` is what a program prints, given its name and `QUERY_STRING`; it
prints nothing if it cannot be executed, because the assertion stops the child only. -/
def requestServeDynamic (socket : Socket) (cgi : List UInt8 → List UInt8 → List UInt8)
    (c : Viewed) : Except Fault (Option (List UInt8)) := do
  let header ← store (ascii "HTTP/1.0 200 OK\r\n" ++ ascii "Server: OSTEP WebServer\r\n")
  return some (socket.write header.bytes ++ cgi c.filename.bytes c.cgiargs.bytes)

/-- What `write_or_die` sends of a page, one call for each of its strings. -/
def sent (socket : Socket) (strings : List CString) : List UInt8 :=
  strings.flatMap fun string => socket.write string.bytes

/-- The bytes that the server writes from the accepted connection to its close. -/
def serve (socket : Socket) (files : Files) (cgi : List UInt8 → List UInt8 → List UInt8)
    (buff : Buffer) (request : List UInt8) : Except Fault (Option (List UInt8)) := do
  let (rc, c) ← viewRequest files.stat buff request
  if rc = 0 then
    match ← requestHandle files.stat c with
    | .error strings => return some (sent socket strings)
    | .dynamic => requestServeDynamic socket cgi c
    | .static => requestServeStatic socket files c
  else
    -- the page that `view_request` has sent
    let strings ← requestError c.filename "404" "File Not Found" "Server Error"
    return some (sent socket strings)

/-- What `client_print` prints of the stream that the client gets for the request. -/
def fetch (socket : Socket) (files : Files) (cgi : List UInt8 → List UInt8 → List UInt8)
    (buff : Buffer) (request : List UInt8) : Except Fault (Option (List UInt8)) := do
  let response ← serve socket files cgi buff request
  return response.map fun bytes => clientPrint (socket.stream bytes)

/-- The first line that `client_send` writes. -/
def requestLine (filename : List UInt8) : List UInt8 :=
  ascii "GET " ++ filename ++ ascii " HTTP/1.1\n"

/-! ## Lines of a response -/

/-- A response of these lines. -/
def response (lines : List (List UInt8)) (body : List UInt8) : List UInt8 :=
  endLines lines ++ emptyLine ++ body

/-- What is printed of a response when nothing is lost. -/
def shown (lines : List (List UInt8)) (body : List UInt8) : List UInt8 := labelled lines ++ body

def staticLines (length : Nat) (filetype : List UInt8) : List (List UInt8) :=
  [ascii "HTTP/1.0 200 OK\r", ascii "Server: OSTEP WebServer\r",
    ascii "Content-Length: " ++ ascii (Nat.repr length) ++ [13],
    ascii "Content-Type: " ++ filetype ++ [13]]

def errorLines (errnum shortmsg : String) (length : Nat) : List (List UInt8) :=
  [ascii "HTTP/1.0 " ++ ascii errnum ++ ascii " " ++ ascii shortmsg ++ [13],
    ascii "Content-Type: text/html\r", ascii "Content-Length: " ++ ascii (Nat.repr length) ++ [13]]

/-- An error page as it is sent. -/
def errorPage (cause : List UInt8) (errnum shortmsg longmsg : String) : List UInt8 :=
  response (errorLines errnum shortmsg (errorBody cause errnum shortmsg longmsg).length)
    (errorBody cause errnum shortmsg longmsg)

/-- An error page as it is printed. -/
def shownError (cause : List UInt8) (errnum shortmsg longmsg : String) : List UInt8 :=
  shown (errorLines errnum shortmsg (errorBody cause errnum shortmsg longmsg).length)
    (errorBody cause errnum shortmsg longmsg)

section Lines

variable {socket : Socket} {lines : List (List UInt8)} {line body s : List UInt8} {length : Nat}

/-- A string is short enough for one write. -/
theorem Socket.Writes.string (h : socket.Writes) (string : CString) :
    socket.write string.bytes = string.bytes := by
  have hmax : maxBuf ≤ maxWrite := by decide
  rw [h, List.take_of_length_le (string.fits.le.trans hmax)]

/-- The header of a file is its four lines and the empty one. -/
theorem staticHeader_eq {filesize : Int32} {filetype : List UInt8}
    (h : filesize.toInt = (length : Int)) :
    staticHeader filesize filetype = endLines (staticLines length filetype) ++ emptyLine := by
  have hok : ascii "HTTP/1.0 200 OK\r\n" = ascii "HTTP/1.0 200 OK\r" ++ [newline] := rfl
  have hserver : ascii "Server: OSTEP WebServer\r\n" =
      ascii "Server: OSTEP WebServer\r" ++ [newline] := rfl
  have hend : ascii "\r\n" = [13, newline] := rfl
  have hlast : ascii "\r\n\r\n" = [13, newline] ++ emptyLine := rfl
  unfold staticHeader endLines staticLines
  rw [h, hok, hserver, hend, hlast]
  simp [Int.repr]

/-- A computation that ends has ended in its first part. -/
theorem bind_ok {α β : Type} {x : Except Fault α} {f : α → Except Fault β} {r : β}
    (h : x >>= f = .ok r) : ∃ a, x = .ok a ∧ f a = .ok r := by
  cases x with
  | error fault => cases h
  | ok a => exact ⟨a, rfl, h⟩

/-- A page that fits its buffers is sent as it is meant. -/
theorem sent_requestError (hwrite : socket.Writes) {cause : CString}
    {errnum shortmsg longmsg : String} {strings : List CString}
    (h : requestError cause errnum shortmsg longmsg = .ok strings) :
    sent socket strings = errorPage cause.bytes errnum shortmsg longmsg := by
  unfold requestError at h
  obtain ⟨body, hbody, h⟩ := bind_ok h
  obtain ⟨status, hstatus, h⟩ := bind_ok h
  obtain ⟨type, htype, h⟩ := bind_ok h
  obtain ⟨length, hlength, h⟩ := bind_ok h
  obtain rfl := Except.ok.inj h
  have hend : ascii "\r\n" = [13, newline] := rfl
  have hlast : ascii "\r\n\r\n" = [13, newline] ++ emptyLine := rfl
  have htext : ascii "Content-Type: text/html\r\n" =
      ascii "Content-Type: text/html\r" ++ [newline] := rfl
  unfold sent errorPage response endLines errorLines
  simp only [List.flatMap_cons, List.flatMap_nil, hwrite.string, store_ok hstatus, store_ok htype,
    store_ok hlength, store_ok hbody]
  unfold statusLine lengthLine
  rw [hend, hlast, htext]
  simp

/-- The client prints the header whole, whatever becomes of the body. -/
theorem clientPrint_response (hlines : ∀ line ∈ lines, HeaderLine line) (body : List UInt8) :
    clientPrint (response lines body) = labelled lines ++ printBody body := by
  unfold clientPrint response
  rw [printHeader_lines hlines]

/-- So the response is shown whole exactly where the lines of its body fit. -/
theorem clientPrint_response_iff (hlines : ∀ line ∈ lines, HeaderLine line) (hbody : 0 ∉ body) :
    clientPrint (response lines body) = shown lines body ↔ LinesFit (maxBuf - 1) body := by
  rw [clientPrint_response hlines, ← printBody_iff hbody]
  exact List.append_right_inj _

/-! ## Texts -/

/-- Bytes that can stand in a line. -/
def Inline (s : List UInt8) : Prop := newline ∉ s ∧ 0 ∉ s

theorem Inline.append {s t : List UInt8} (hs : Inline s) (ht : Inline t) : Inline (s ++ t) := by
  constructor
  · rw [List.mem_append, not_or]
    exact ⟨hs.1, ht.1⟩
  · rw [List.mem_append, not_or]
    exact ⟨hs.2, ht.2⟩

instance (s : List UInt8) : Decidable (Inline s) := inferInstanceAs (Decidable (_ ∧ _))

theorem inline_repr (n : Nat) : Inline (ascii (Nat.repr n)) := by
  have hdigit : ∀ c ∈ ascii (Nat.repr n), 48 ≤ c.toNat := by
    intro c hc
    unfold ascii at hc
    obtain ⟨d, hd, rfl⟩ := List.mem_map.mp hc
    rw [Nat.repr_eq_ofList_toDigits, String.toList_ofList] at hd
    have hd := Char.isDigit_iff_toNat.mp (Nat.isDigit_of_mem_toDigits (by decide) (by decide) hd)
    have hbounds : '0'.toNat = 48 ∧ '9'.toNat = 57 := by decide
    rw [UInt8.toNat_ofNat']
    omega
  constructor
  · intro h
    exact absurd (hdigit _ h) (by decide)
  · intro h
    exact absurd (hdigit _ h) (by decide)

theorem length_ascii_repr {n k : Nat} (hk : 0 < k) (h : n < 10 ^ k) :
    (ascii (Nat.repr n)).length ≤ k := by
  rw [ascii_length, Nat.length_repr_le_iff hk]
  exact h

/-- Bytes that can stand in a line, not too long and not too short, are a line of a header. -/
theorem Inline.headerLine (h : Inline s) (hshort : s.length < maxBuf - 1) (hlong : 2 ≤ s.length) :
    HeaderLine s := by
  refine ⟨h.1, h.2, hshort, List.ne_nil_of_length_pos (by omega), ?_⟩
  intro heq
  have hlength := congrArg List.length heq
  rw [List.length_append] at hlength
  have hempty : emptyLine.length = 2 := rfl
  have hnewline : [newline].length = 1 := rfl
  omega

/-- A number that an `int` holds has at most ten digits. -/
theorem headerLine_length {n : Nat} (h : n < 2 ^ 31) :
    HeaderLine (ascii "Content-Length: " ++ ascii (Nat.repr n) ++ [13]) := by
  have hdigits : (ascii (Nat.repr n)).length ≤ 10 :=
    length_ascii_repr (by decide) (Nat.lt_trans h (by decide))
  have hlabel : (ascii "Content-Length: ").length = 16 := by decide
  have hmax : maxBuf = 8192 := rfl
  apply Inline.headerLine
  · have hlabel : Inline (ascii "Content-Length: ") := by decide
    have hend : Inline [13] := by decide
    exact (hlabel.append (inline_repr n)).append hend
  · simp only [List.length_append, List.length_singleton]
    omega
  · simp only [List.length_append, List.length_singleton]
    omega

/-- The lines of a file's header are such lines. -/
theorem headerLine_static {n : Nat} (h : n < 2 ^ 31) (filename : List UInt8) :
    ∀ line ∈ staticLines n (requestGetFiletype filename).bytes, HeaderLine line := by
  have htype : ∀ s ∈ [ascii "text/html", ascii "image/gif", ascii "image/jpeg", ascii "text/plain"],
      HeaderLine (ascii "Content-Type: " ++ s ++ [13]) := by
    intro s hs
    apply Inline.headerLine
    · simp only [List.mem_cons, List.not_mem_nil, or_false] at hs
      rcases hs with rfl | rfl | rfl | rfl <;> decide
    · simp only [List.mem_cons, List.not_mem_nil, or_false] at hs
      rcases hs with rfl | rfl | rfl | rfl <;> decide
    · simp only [List.mem_cons, List.not_mem_nil, or_false] at hs
      rcases hs with rfl | rfl | rfl | rfl <;> decide
  intro line hline
  unfold staticLines at hline
  simp only [List.mem_cons, List.not_mem_nil, or_false] at hline
  rcases hline with rfl | rfl | rfl | rfl
  · exact Inline.headerLine (by decide) (by decide) (by decide)
  · exact Inline.headerLine (by decide) (by decide) (by decide)
  · exact headerLine_length h
  · apply htype
    unfold requestGetFiletype
    split
    · simp
    · split
      · simp
      · split
        · simp
        · simp

/-- So are those of an error page's. -/
theorem headerLine_error {errnum shortmsg : String} {n : Nat} (h : n < 2 ^ 31)
    (hstatus : HeaderLine (ascii "HTTP/1.0 " ++ ascii errnum ++ ascii " " ++ ascii shortmsg ++ [13])) :
    ∀ line ∈ errorLines errnum shortmsg n, HeaderLine line := by
  intro line hline
  unfold errorLines at hline
  simp only [List.mem_cons, List.not_mem_nil, or_false] at hline
  rcases hline with rfl | rfl | rfl
  · exact hstatus
  · exact Inline.headerLine (by decide) (by decide) (by decide)
  · exact headerLine_length h

/-! ## Error pages -/

/-- Lines of which none is empty or as long as the buffer fit. -/
theorem linesFit_endLines {m : Nat}
    (hlines : ∀ line ∈ lines, newline ∉ line ∧ line ≠ [] ∧ line.length < m) :
    LinesFit m (endLines lines) := by
  induction lines with
  | nil =>
    show LinesFit m []
    rw [linesFit_last List.not_mem_nil, List.length_nil, Nat.zero_mod]
    exact Nat.zero_ne_one
  | cons line lines ih =>
    rw [List.forall_mem_cons] at hlines
    obtain ⟨⟨hline, hne, hshort⟩, hlines⟩ := hlines
    unfold endLines
    rw [List.flatMap_cons, List.append_assoc, List.singleton_append, linesFit_line hline,
      Nat.mod_eq_of_lt hshort]
    exact ⟨(List.length_pos_of_ne_nil hne).ne', ih hlines⟩

/-- The lines of an error page. -/
def pageLines (cause : List UInt8) (errnum shortmsg longmsg : String) : List (List UInt8) :=
  [ascii "<!doctype html>\r", ascii "<head>\r", ascii "  <title>OSTEP WebServer Error</title>\r",
    ascii "</head>\r", ascii "<body>\r",
    ascii "  <h2>" ++ ascii errnum ++ ascii ": " ++ ascii shortmsg ++ ascii "</h2>\r",
    ascii "  <p>" ++ ascii longmsg ++ ascii ": " ++ cause ++ ascii "</p>\r",
    ascii "</body>\r", ascii "</html>\r"]

/-- The body of an error page is its lines. -/
theorem errorBody_eq (cause : List UInt8) (errnum shortmsg longmsg : String) :
    errorBody cause errnum shortmsg longmsg =
      endLines (pageLines cause errnum shortmsg longmsg) := by
  have hdoctype : ascii "<!doctype html>\r\n" = ascii "<!doctype html>\r" ++ [newline] := rfl
  have hhead : ascii "<head>\r\n" = ascii "<head>\r" ++ [newline] := rfl
  have htitle : ascii "  <title>OSTEP WebServer Error</title>\r\n" =
      ascii "  <title>OSTEP WebServer Error</title>\r" ++ [newline] := rfl
  have hheadEnd : ascii "</head>\r\n" = ascii "</head>\r" ++ [newline] := rfl
  have hbody : ascii "<body>\r\n" = ascii "<body>\r" ++ [newline] := rfl
  have hh2 : ascii "</h2>\r\n" = ascii "</h2>\r" ++ [newline] := rfl
  have hp : ascii "</p>\r\n" = ascii "</p>\r" ++ [newline] := rfl
  have hbodyEnd : ascii "</body>\r\n" = ascii "</body>\r" ++ [newline] := rfl
  have hhtml : ascii "</html>\r\n" = ascii "</html>\r" ++ [newline] := rfl
  unfold errorBody endLines pageLines
  rw [hdoctype, hhead, htitle, hheadEnd, hbody, hh2, hp, hbodyEnd, hhtml]
  simp

theorem length_lt_endLines (h : line ∈ lines) : line.length < (endLines lines).length := by
  have hsublist : (line ++ [newline]).Sublist (endLines lines) :=
    List.sublist_flatten_of_mem (List.mem_map_of_mem h)
  have hle := hsublist.length_le
  rw [List.length_append, List.length_singleton] at hle
  exact hle

theorem Inline.not_mem_endLines (h : ∀ line ∈ lines, Inline line) : 0 ∉ endLines lines := by
  intro hmem
  obtain ⟨line, hline, hmem⟩ := List.mem_flatMap.mp hmem
  rcases List.mem_append.mp hmem with hin | hend
  · exact (h line hline).2 hin
  · exact absurd hend (by decide)

/-- A page about a name without newlines is shown whole. -/
theorem clientPrint_requestError {cause : CString} {errnum shortmsg longmsg : String}
    {strings : List CString} (hcause : Inline cause.bytes) (herrnum : Inline (ascii errnum))
    (hshortmsg : Inline (ascii shortmsg)) (hlongmsg : Inline (ascii longmsg))
    (h : requestError cause errnum shortmsg longmsg = .ok strings) :
    clientPrint (errorPage cause.bytes errnum shortmsg longmsg) =
      shownError cause.bytes errnum shortmsg longmsg := by
  have hfits : (errorBody cause.bytes errnum shortmsg longmsg).length < maxBuf ∧
      (statusLine errnum shortmsg).length < maxBuf := by
    unfold requestError at h
    obtain ⟨body, hbody, h⟩ := bind_ok h
    obtain ⟨status, hstatus, _⟩ := bind_ok h
    rw [← store_ok hbody, ← store_ok hstatus]
    exact ⟨body.fits, status.fits⟩
  have hstatus : HeaderLine
      (ascii "HTTP/1.0 " ++ ascii errnum ++ ascii " " ++ ascii shortmsg ++ [13]) := by
    have hlabel : Inline (ascii "HTTP/1.0 ") := by decide
    have hspace : Inline (ascii " ") := by decide
    have hend : Inline [13] := by decide
    have hlengths : (ascii "HTTP/1.0 ").length = 9 ∧ (ascii "\r\n").length = 2 := by decide
    have hshort := hfits.2
    unfold statusLine at hshort
    apply Inline.headerLine
    · exact (((hlabel.append herrnum).append hspace).append hshortmsg).append hend
    · simp only [List.length_append, List.length_singleton] at hshort ⊢
      omega
    · simp only [List.length_append, List.length_singleton]
      omega
  have hinline : ∀ line ∈ pageLines cause.bytes errnum shortmsg longmsg, Inline line := by
    have hh2 : Inline (ascii "  <h2>") ∧ Inline (ascii ": ") ∧ Inline (ascii "</h2>\r") := by decide
    have hp : Inline (ascii "  <p>") ∧ Inline (ascii "</p>\r") := by decide
    intro line hline
    unfold pageLines at hline
    simp only [List.mem_cons, List.not_mem_nil, or_false] at hline
    rcases hline with rfl | rfl | rfl | rfl | rfl | rfl | rfl | rfl | rfl
    · decide
    · decide
    · decide
    · decide
    · decide
    · exact (((hh2.1.append herrnum).append hh2.2.1).append hshortmsg).append hh2.2.2
    · exact (((hp.1.append hlongmsg).append hh2.2.1).append hcause).append hp.2
    · decide
    · decide
  -- No line of the page is empty, and the page itself is shorter than a buffer.
  have hbody : LinesFit (maxBuf - 1) (errorBody cause.bytes errnum shortmsg longmsg) := by
    have hlength := hfits.1
    rw [errorBody_eq] at hlength ⊢
    apply linesFit_endLines
    intro line hline
    have hlt := length_lt_endLines hline
    refine ⟨(hinline line hline).1, ?_, by omega⟩
    unfold pageLines at hline
    simp only [List.mem_cons, List.not_mem_nil, or_false] at hline
    rcases hline with rfl | rfl | rfl | rfl | rfl | rfl | rfl | rfl | rfl <;>
      simp [ascii]
  apply (clientPrint_response_iff ?_ ?_).mpr hbody
  -- The header's own lines do not depend on the cause.
  · exact headerLine_error (Nat.lt_trans hfits.1 (by decide)) hstatus
  · rw [errorBody_eq]
    exact Inline.not_mem_endLines hinline

end Lines

/-! ## The request -/

/-- A name that the client's first `sprintf` has room for and that `strtok` takes as one token. -/
structure Asks (uri : List UInt8) : Prop where
  nonempty : uri ≠ []
  inline : Inline uri
  oneToken : space ∉ uri
  fits : (requestLine uri).length < maxBuf

section Requests

variable {socket : Socket} {files : Files} {cgi : List UInt8 → List UInt8 → List UInt8}
  {buff : Buffer} {uri : List UInt8} {file : File} {parsed : Parsed}

/-- The server receives the first line of the client, whatever lines come behind it. -/
theorem Asks.received (h : Asks uri) (buff : Buffer) (rest : List UInt8) :
    0 ∈ received buff (requestLine uri ++ rest) ∧
      (words space ((received buff (requestLine uri ++ rest)).takeWhile (· ≠ 0)))[1]? =
        some uri := by
  have hget : ascii "GET " = ascii "GET" ++ [space] := rfl
  have hversion : ascii " HTTP/1.1" = space :: ascii "HTTP/1.1" := rfl
  have htexts : Inline (ascii "GET ") ∧ Inline (ascii " HTTP/1.1") := by decide
  have hinline : Inline (ascii "GET " ++ uri ++ ascii " HTTP/1.1") :=
    (htexts.1.append h.inline).append htexts.2
  have hline : requestLine uri = ascii "GET " ++ uri ++ ascii " HTTP/1.1" ++ [newline] := by
    unfold requestLine
    rw [List.append_assoc (ascii "GET " ++ uri)]
    rfl
  -- The line is within the buffer of the server, so the read stops at its newline.
  have hroom : (ascii "GET " ++ uri ++ ascii " HTTP/1.1").length < maxBuf - 1 := by
    have hfits := h.fits
    rw [hline, List.length_append, List.length_singleton] at hfits
    omega
  have hreceived : OsLab.Web.received buff (requestLine uri ++ rest) =
      ascii "GET " ++ uri ++ ascii " HTTP/1.1" ++ [newline] ++ [0] := by
    rw [hline, List.append_assoc, List.singleton_append]
    exact received_first buff rest hinline.1 hroom
  have hall : ∀ c ∈ ascii "GET " ++ uri ++ ascii " HTTP/1.1" ++ [newline],
      decide (c ≠ 0) = true := by
    intro c hc
    rcases List.mem_append.mp hc with hin | hend
    · have hne : c ≠ 0 := fun heq => hinline.2 (heq ▸ hin)
      simpa using hne
    · rw [List.mem_singleton.mp hend]
      decide
  rw [hreceived]
  refine ⟨List.mem_append_right _ (List.mem_singleton_self _), ?_⟩
  rw [List.takeWhile_append_of_pos hall, List.takeWhile_cons_of_neg (by decide), List.append_nil]
  -- The uri is the second word of the line.
  have hsplit : ascii "GET " ++ uri ++ ascii " HTTP/1.1" ++ [newline] =
      ascii "GET" ++ space :: (uri ++ space :: (ascii "HTTP/1.1" ++ [newline])) := by
    rw [hget, hversion]
    simp
  rw [hsplit, words_append (by decide) (by decide), words_append h.oneToken h.nonempty]
  rfl

/-- A name without `".cgi"` is left as it is. -/
theorem parseCgi_of_not (h : ¬ dotCgi <:+: uri) : parseCgi uri = (0, [], uri) := if_neg h

/-- A name without `".cgi"` is parsed as a file's, if it fits. -/
theorem requestParseUri_of_not (hne : uri ≠ []) (huri : uri.length + 1 < maxBuf)
    (hcgi : ¬ dotCgi <:+: uri) (hname : (fileName uri).length < maxBuf) : ∃ cgiargs,
      requestParseUri (some uri) = .ok ⟨0, uri, ⟨fileName uri, hname⟩, cgiargs⟩ := by
  have hpath : uriPath uri = uri := congrArg (·.2.2) (parseCgi_of_not hcgi)
  obtain ⟨cgiargs, hparse⟩ := requestParseUri_path huri (hpath.symm ▸ hne)
  refine ⟨cgiargs, ?_⟩
  rw [hparse, hpath, store_of_lt hname, parseCgi_of_not hcgi]
  rfl

theorem Files.stat_of_none (h : files uri = none) : files.stat uri = none := by
  unfold Files.stat
  rw [h]
  rfl

theorem Files.stat_of_some (h : files uri = some file) : files.stat uri = some file.stat := by
  unfold Files.stat
  rw [h]
  rfl

/-- The test of `request_handle` for a file. -/
theorem forbidden_iff (file : File) : (!isReg file.mode || !isExecutable file.mode) = true ↔
    ¬ (isReg file.mode = true ∧ isExecutable file.mode = true) := by
  cases isReg file.mode <;> cases isExecutable file.mode <;> decide

/-- The page of a refusal, if it fits. -/
def refuse (socket : Socket) (cause : CString) (errnum shortmsg longmsg : String) :
    Except Fault (Option (List UInt8)) := do
  let strings ← requestError cause errnum shortmsg longmsg
  return some (sent socket strings)

/-- A file is refused, or sent if it may be executed. -/
theorem serve_eq (socket : Socket) (cgi : List UInt8 → List UInt8 → List UInt8) (buff : Buffer)
    (h : Asks uri) (hcgi : ¬ dotCgi <:+: uri) (hname : (fileName uri).length < maxBuf)
    (rest : List UInt8) :
    (files (fileName uri) = none → serve socket files cgi buff (requestLine uri ++ rest) =
      refuse socket ⟨fileName uri, hname⟩ "404" "File Not Found" "Server Error") ∧
    ∀ file, files (fileName uri) = some file →
      (¬ (isReg file.mode = true ∧ isExecutable file.mode = true) →
        serve socket files cgi buff (requestLine uri ++ rest) =
          refuse socket ⟨fileName uri, hname⟩ "403" "Forbidden"
            "server could not run this CGI program") ∧
      (isReg file.mode = true → isExecutable file.mode = true → ∃ c : Viewed,
        c.filename.bytes = fileName uri ∧ c.filesize = file.stat.size.toInt32 ∧
        serve socket files cgi buff (requestLine uri ++ rest) =
          requestServeStatic socket files c) := by
  obtain ⟨hended, hsecond⟩ := h.received buff rest
  obtain ⟨_, huri⟩ := uri_fits hended hsecond
  obtain ⟨token, token2, heq⟩ := viewRequest_of_second files.stat hended hsecond
  obtain ⟨cgiargs, hparse⟩ := requestParseUri_of_not h.nonempty huri hcgi hname
  rw [hparse, ok_bind] at heq
  unfold serve
  rw [heq]
  -- `view_request` has come as far as its `stat`.
  unfold viewParsed
  constructor
  · intro hnone
    dsimp only
    rw [Files.stat_of_none hnone]
    dsimp only
    unfold refuse
    cases hpage : requestError ⟨fileName uri, hname⟩ "404" "File Not Found" "Server Error" with
    | error fault => rfl
    | ok strings =>
      rw [ok_bind, pure_bind]
      dsimp only
      rw [if_neg (by decide), hpage]
  · intro file hfile
    have hstat := Files.stat_of_some hfile
    have hmode : file.stat.mode = file.mode := rfl
    dsimp only
    rw [hstat]
    dsimp only
    rw [pure_bind]
    dsimp only
    rw [if_pos rfl]
    -- The file is there, so the request is handled; it names no program.
    unfold requestHandle
    dsimp only
    rw [hstat]
    dsimp only
    rw [if_neg (by decide), hmode]
    constructor
    · intro hnot
      rw [if_pos ((forbidden_iff file).mpr hnot)]
      unfold refuse
      cases requestError ⟨fileName uri, hname⟩ "403" "Forbidden"
        "server could not run this CGI program" <;> rfl
    · intro hreg hexec
      rw [hreg, hexec]
      exact ⟨_, rfl, rfl, rfl⟩

/-- The size in an `int` is the size of the file modulo 4 GiB. -/
theorem File.stat_size (file : File) :
    file.stat.size.toInt32.toInt = (file.contents.length : Int).bmod (2 ^ 32) := by
  unfold File.stat
  dsimp only
  rw [Int64.toInt_toInt32, Int64.toInt_ofNat_of_lt file.size]

/-! ## Files that are sent -/

theorem length_filetype (filename : List UInt8) :
    (requestGetFiletype filename).bytes.length ≤ 10 := by
  unfold requestGetFiletype
  split
  · decide
  · split
    · decide
    · split
      · decide
      · decide

/-- The header fits its buffer. -/
theorem staticHeader_fits {filesize : Int32} {n : Nat} (hn : filesize.toInt = (n : Int))
    (h : n < 2 ^ 31) (filename : List UInt8) :
    (staticHeader filesize (requestGetFiletype filename).bytes).length < maxBuf := by
  have hdigits : (ascii (Nat.repr n)).length ≤ 10 :=
    length_ascii_repr (by decide) (Nat.lt_trans h (by decide))
  have htype := length_filetype filename
  have htexts : (ascii "HTTP/1.0 200 OK\r\n").length = 17 ∧
      (ascii "Server: OSTEP WebServer\r\n").length = 25 ∧
      (ascii "Content-Length: ").length = 16 ∧ (ascii "\r\n").length = 2 ∧
      (ascii "Content-Type: ").length = 14 ∧ (ascii "\r\n\r\n").length = 4 := by decide
  have hmax : maxBuf = 8192 := rfl
  have hrepr : Int.repr (n : Int) = Nat.repr n := rfl
  unfold staticHeader
  rw [hn, hrepr]
  simp only [List.length_append]
  omega

/-- The part of the file that the size in an `int` counts is sent, as far as one write takes it. -/
theorem requestServeStatic_eq (hwrite : socket.Writes) {c : Viewed} {n : Nat}
    (hfile : files c.filename.bytes = some file) (hopens : file.opens = true)
    (hn : c.filesize.toInt = (n : Int)) (hpos : 0 < n) :
    requestServeStatic socket files c = .ok (some (response
      (staticLines n (requestGetFiletype c.filename.bytes).bytes)
      (file.contents.take (min maxWrite n)))) := by
  have hlt : n < 2 ^ 31 := by
    have hbound := Int32.toInt_lt c.filesize
    omega
  have hsize : 0 < c.filesize := by
    rw [Int32.lt_iff_toInt_lt, hn]
    exact Int.natCast_pos.mpr hpos
  unfold requestServeStatic
  rw [hfile]
  dsimp only
  rw [if_pos (by simp [hopens, hsize]), store_of_lt (staticHeader_fits hn hlt _), ok_bind,
    hwrite.string, hwrite, List.take_take, hn, Int.toNat_natCast]
  dsimp only
  rw [staticHeader_eq hn]
  rfl

/-- The server stops at an assertion: the file cannot be opened, or `mmap` is asked for nothing. -/
theorem requestServeStatic_none {c : Viewed} (hfile : files c.filename.bytes = some file)
    (h : file.opens = false ∨ c.filesize.toInt ≤ 0) :
    requestServeStatic socket files c = .ok none := by
  have hnot : ¬ (file.opens && decide (0 < c.filesize)) = true := by
    rw [Bool.and_eq_true, decide_eq_true_iff, Int32.lt_iff_toInt_lt]
    rintro ⟨hopens, hpos⟩
    rcases h with hclosed | hle
    · rw [hclosed] at hopens
      cases hopens
    · have hzero : (0 : Int32).toInt = 0 := rfl
      omega
  unfold requestServeStatic
  rw [hfile]
  exact if_neg hnot

/-! ## What the client prints -/

/-- The second loop prints no more than there is. By induction on the calls. -/
theorem printBody_length_le (body : List UInt8) : (printBody body).length ≤ body.length := by
  induction hlength : body.length using Nat.strong_induction_on generalizing body with
  | _ k ih =>
  subst hlength
  have hreads := readline_reads maxBuf body
  by_cases hcount : 0 < (readline maxBuf body).count
  · have hrest := ih _ (hreads.rest_lt hcount) _ rfl
    have happend := congrArg List.length hreads.stored_append
    have hstring : (readline maxBuf body).string.length ≤ (readline maxBuf body).stored.length :=
      (List.takeWhile_prefix _).length_le
    rw [List.length_append] at happend
    rw [printBody_of_pos hcount, List.length_append]
    omega
  · rw [printBody_of_zero (by omega)]
    exact Nat.zero_le _

/-- The bytes of a static response. -/
theorem length_response_static (n : Nat) (filetype body : List UInt8) :
    (response (staticLines n filetype) body).length =
      78 + (Nat.repr n).length + filetype.length + body.length := by
  have htexts : (ascii "HTTP/1.0 200 OK\r").length = 16 ∧
      (ascii "Server: OSTEP WebServer\r").length = 24 ∧
      (ascii "Content-Length: ").length = 16 ∧ (ascii "Content-Type: ").length = 14 ∧
      emptyLine.length = 2 := by decide
  unfold response endLines staticLines
  simp only [List.flatMap_cons, List.flatMap_nil, List.length_append, List.length_singleton,
    List.length_nil, ascii_length (Nat.repr n)]
  omega

/-- The client's label stands in front of each of the four lines. -/
theorem length_labelled_static (n : Nat) (filetype : List UInt8) :
    (labelled (staticLines n filetype)).length = 108 + (Nat.repr n).length + filetype.length := by
  have htexts : (ascii "HTTP/1.0 200 OK\r").length = 16 ∧
      (ascii "Server: OSTEP WebServer\r").length = 24 ∧
      (ascii "Content-Length: ").length = 16 ∧ (ascii "Content-Type: ").length = 14 ∧
      headerLabel.length = 8 := by decide
  unfold labelled staticLines
  simp only [List.flatMap_cons, List.flatMap_nil, List.length_append, List.length_singleton,
    List.length_nil, ascii_length (Nat.repr n)]
  omega

/-- A positive `int` made of a size is the size itself, or short of it by 4 GiB. -/
theorem size_cases {size n : Nat} (hn : (size : Int).bmod (2 ^ 32) = n) (hpos : 0 < n) :
    n < 2 ^ 31 ∧ (size = n ∨ n + 2 ^ 32 ≤ size) := by
  have hlt : n < 2 ^ 31 := by
    have hbound := Int.bmod_lt (x := (size : Int)) (m := 2 ^ 32) (by decide)
    omega
  refine ⟨hlt, ?_⟩
  by_cases hsize : size < 2 ^ 31
  · rw [Int.bmod_eq_of_le (by omega) (by omega)] at hn
    exact .inl (Int.ofNat.inj hn)
  · have hdvd := Int.dvd_self_sub_bmod (x := (size : Int)) (m := 2 ^ 32)
    right
    omega

/-- With a size that one write does not take, the length given in the header and what follows it
are shorter than those of the whole file. -/
theorem cut_length_lt {size n k : Nat} (hn : (size : Int).bmod (2 ^ 32) = n) (hpos : 0 < n)
    (hsize : ¬ size ≤ maxWrite) (hk : k ≤ maxWrite) (hkn : k ≤ n) :
    (Nat.repr n).length + k < (Nat.repr size).length + size := by
  obtain ⟨hlt, rfl | hcut⟩ := size_cases hn hpos
  · omega
  · have hdigits : (Nat.repr n).length ≤ 10 :=
      (Nat.length_repr_le_iff (by decide)).mpr (Nat.lt_trans hlt (by decide))
    omega

/-- One write takes the file if and only if the response is that of the whole file. -/
theorem response_static_iff {n : Nat} (filetype : List UInt8)
    (hn : (file.contents.length : Int).bmod (2 ^ 32) = n) (hpos : 0 < n) :
    response (staticLines n filetype) (file.contents.take (min maxWrite n)) =
      response (staticLines file.contents.length filetype) file.contents ↔
    file.contents.length ≤ maxWrite := by
  by_cases hsize : file.contents.length ≤ maxWrite
  · have hsame : file.contents.length = n := by
      obtain ⟨_, hsame | hcut⟩ := size_cases hn hpos
      · exact hsame
      · have hmax : maxWrite < 2 ^ 32 := by decide
        omega
    rw [← hsame, List.take_of_length_le (Nat.le_min.mpr ⟨hsize, Nat.le_refl _⟩)]
    exact iff_of_true rfl hsize
  · refine iff_of_false (fun heq => ?_) hsize
    have hlength := congrArg List.length heq
    have hlt := @cut_length_lt _ _ (min maxWrite n) hn hpos hsize (Nat.min_le_left ..)
      (Nat.min_le_right ..)
    have htake := List.length_take_le (min maxWrite n) file.contents
    rw [length_response_static, length_response_static] at hlength
    omega

/-- A file is shown whole if one write takes it and its lines fit. -/
theorem clientPrint_static_iff {n : Nat} (filename : List UInt8) (hfile : 0 ∉ file.contents)
    (hn : (file.contents.length : Int).bmod (2 ^ 32) = n) (hpos : 0 < n) :
    clientPrint (response (staticLines n (requestGetFiletype filename).bytes)
        (file.contents.take (min maxWrite n))) =
      shown (staticLines file.contents.length (requestGetFiletype filename).bytes) file.contents ↔
    file.contents.length ≤ maxWrite ∧ LinesFit (maxBuf - 1) file.contents := by
  obtain ⟨hlt, _⟩ := size_cases hn hpos
  have hlines := headerLine_static hlt filename
  by_cases hsize : file.contents.length ≤ maxWrite
  · rw [(response_static_iff _ hn hpos).mpr hsize]
    have hmax : maxWrite < 2 ^ 31 := by decide
    rw [clientPrint_response_iff (headerLine_static (hsize.trans_lt hmax) filename) hfile]
    exact ⟨fun h => ⟨hsize, h⟩, And.right⟩
  · refine iff_of_false (fun heq => ?_) fun h => hsize h.1
    -- the client prints no more bytes than it gets
    have hlength := congrArg List.length heq
    have hbody := printBody_length_le (file.contents.take (min maxWrite n))
    have hlt := @cut_length_lt _ _ (min maxWrite n) hn hpos hsize (Nat.min_le_left ..)
      (Nat.min_le_right ..)
    have htake := List.length_take_le (min maxWrite n) file.contents
    rw [clientPrint_response hlines] at hlength
    unfold shown at hlength
    rw [List.length_append, List.length_append, length_labelled_static,
      length_labelled_static] at hlength
    omega

theorem inline_fileName (h : Inline uri) : Inline (fileName uri) := by
  have hdot : Inline (ascii ".") := by decide
  unfold fileName indexHtml
  apply (hdot.append h).append
  split <;> decide

/-- A refusal that fits its buffer is sent as its page, and printed whole. -/
theorem fetch_refuse (hwrite : socket.Writes) {request : List UInt8} {cause : CString}
    {errnum shortmsg longmsg : String} {k : Nat}
    (hserve : serve socket files cgi buff request = refuse socket cause errnum shortmsg longmsg)
    (hcause : Inline cause.bytes) (herrnum : Inline (ascii errnum))
    (hshortmsg : Inline (ascii shortmsg)) (hlongmsg : Inline (ascii longmsg))
    (hstatus : (statusLine errnum shortmsg).length < maxBuf)
    (htexts : 128 + errnum.length + shortmsg.length + longmsg.length = k)
    (hfits : cause.bytes.length + k < maxBuf) :
    serve socket files cgi buff request =
        .ok (some (errorPage cause.bytes errnum shortmsg longmsg)) ∧
      (socket.Keeps → fetch socket files cgi buff request =
        .ok (some (shownError cause.bytes errnum shortmsg longmsg))) := by
  obtain ⟨strings, hpage⟩ := requestError_ok hstatus htexts hfits
  have hsent : serve socket files cgi buff request =
      .ok (some (errorPage cause.bytes errnum shortmsg longmsg)) := by
    rw [hserve]
    unfold refuse
    rw [hpage, ok_bind, sent_requestError hwrite hpage]
    rfl
  refine ⟨hsent, fun hkeeps => ?_⟩
  unfold fetch
  rw [hsent, ok_bind, Option.map_some, hkeeps,
    clientPrint_requestError hcause herrnum hshortmsg hlongmsg hpage]
  rfl

/-- What is sent of a file, and what its client prints. -/
theorem fetch_static (hwrite : socket.Writes) {request : List UInt8} {c : Viewed}
    (hserve : serve socket files cgi buff request = requestServeStatic socket files c)
    (hfile : files c.filename.bytes = some file)
    (hsize : c.filesize.toInt = (file.contents.length : Int).bmod (2 ^ 32)) :
    (serve socket files cgi buff request = .ok none ↔
      file.opens = false ∨ (file.contents.length : Int).bmod (2 ^ 32) ≤ 0) ∧
    (serve socket files cgi buff request = .ok (some (response (staticLines file.contents.length
        (requestGetFiletype c.filename.bytes).bytes) file.contents)) ↔
      file.opens = true ∧ 0 < file.contents.length ∧ file.contents.length ≤ maxWrite) ∧
    (socket.Keeps → 0 ∉ file.contents →
      (fetch socket files cgi buff request = .ok (some (shown (staticLines file.contents.length
        (requestGetFiletype c.filename.bytes).bytes) file.contents)) ↔
      file.opens = true ∧ 0 < file.contents.length ∧ file.contents.length ≤ maxWrite ∧
        LinesFit (maxBuf - 1) file.contents)) := by
  unfold fetch
  rw [hserve]
  -- The server writes something, or stops at one of its two assertions.
  by_cases hsent : file.opens = true ∧ 0 < c.filesize.toInt
  · obtain ⟨hopens, hpos⟩ := hsent
    obtain ⟨n, hn⟩ := Int.eq_ofNat_of_zero_le (Int.le_of_lt hpos)
    rw [hn] at hpos
    have hpos := Int.natCast_pos.mp hpos
    rw [requestServeStatic_eq hwrite hfile hopens hn hpos, ok_bind]
    rw [hsize] at hn
    -- A size that is positive in an `int` is not that of an empty file.
    have hnonempty : 0 < file.contents.length := by
      by_contra hempty
      rw [Nat.eq_zero_of_not_pos hempty] at hn
      have hzero : ((0 : Nat) : Int).bmod (2 ^ 32) = 0 := rfl
      omega
    refine ⟨?_, ?_, fun hkeeps hnul => ?_⟩
    · apply iff_of_false (fun h => by cases h)
      rintro (hclosed | hle)
      · rw [hopens] at hclosed
        cases hclosed
      · omega
    · have hiff := response_static_iff (requestGetFiletype c.filename.bytes).bytes hn hpos
      constructor
      · intro h
        exact ⟨hopens, hnonempty, hiff.mp (Option.some.inj (Except.ok.inj h))⟩
      · rintro ⟨_, _, h⟩
        exact congrArg (fun text => Except.ok (some text)) (hiff.mpr h)
    · have hiff := clientPrint_static_iff c.filename.bytes hnul hn hpos
      rw [Option.map_some, hkeeps]
      constructor
      · intro h
        exact ⟨hopens, hnonempty, hiff.mp (Option.some.inj (Except.ok.inj h))⟩
      · rintro ⟨_, _, h⟩
        exact congrArg (fun text => Except.ok (some text)) (hiff.mpr h)
  · have hstops : file.opens = false ∨ c.filesize.toInt ≤ 0 := by
      cases hopens : file.opens with
      | false => exact .inl rfl
      | true => exact .inr (Int.not_lt.mp fun hpos => hsent ⟨hopens, hpos⟩)
    -- A file that is not sent is not one that one write could take.
    have hnot : ¬ (file.opens = true ∧ 0 < file.contents.length ∧
        file.contents.length ≤ maxWrite) := by
      rintro ⟨hopens, hpos, hle⟩
      have hmax : maxWrite < 2 ^ 31 := by decide
      apply hsent
      rw [hsize, Int.bmod_eq_of_le (by omega) (by omega)]
      exact ⟨hopens, Int.natCast_pos.mpr hpos⟩
    rw [requestServeStatic_none hfile hstops, ← hsize]
    refine ⟨iff_of_true rfl hstops, iff_of_false (fun h => by cases h) hnot, fun _ _ =>
      iff_of_false (fun h => by cases h) ?_⟩
    rintro ⟨hopens, hpos, hle, _⟩
    exact hnot ⟨hopens, hpos, hle⟩

/-- **What is sent for a name, and what its client prints.** A missing file and one that may not be
executed give the whole error page. For a regular executable file the server stops exactly if the
file cannot be opened or the `int` that holds its size is not positive, and it writes the header and
the whole file exactly if the file can be opened, is not empty and is taken by one write. The client
shows such a file whole exactly if its lines fit besides. What the client prints rests on a stream
that arrives whole. -/
theorem fetch_shown (socket : Socket) (files : Files)
    (cgi : List UInt8 → List UInt8 → List UInt8) (buff : Buffer) (uri rest : List UInt8)
    (hwrite : socket.Writes) (hasks : Asks uri) (hcgi : ¬ dotCgi <:+: uri)
    (hroom : Room files.stat files.stat uri) :
    (files (fileName uri) = none →
      serve socket files cgi buff (requestLine uri ++ rest) =
        .ok (some (errorPage (fileName uri) "404" "File Not Found" "Server Error")) ∧
      (socket.Keeps → fetch socket files cgi buff (requestLine uri ++ rest) =
        .ok (some (shownError (fileName uri) "404" "File Not Found" "Server Error")))) ∧
    ∀ file, files (fileName uri) = some file →
      (¬ (isReg file.mode = true ∧ isExecutable file.mode = true) →
        serve socket files cgi buff (requestLine uri ++ rest) =
          .ok (some (errorPage (fileName uri) "403" "Forbidden"
            "server could not run this CGI program")) ∧
        (socket.Keeps → fetch socket files cgi buff (requestLine uri ++ rest) =
          .ok (some (shownError (fileName uri) "403" "Forbidden"
            "server could not run this CGI program")))) ∧
      (isReg file.mode = true → isExecutable file.mode = true →
        (serve socket files cgi buff (requestLine uri ++ rest) = .ok none ↔
          file.opens = false ∨ (file.contents.length : Int).bmod (2 ^ 32) ≤ 0) ∧
        (serve socket files cgi buff (requestLine uri ++ rest) =
            .ok (some (response (staticLines file.contents.length
              (requestGetFiletype (fileName uri)).bytes) file.contents)) ↔
          file.opens = true ∧ 0 < file.contents.length ∧ file.contents.length ≤ maxWrite) ∧
        (socket.Keeps → 0 ∉ file.contents →
          (fetch socket files cgi buff (requestLine uri ++ rest) =
            .ok (some (shown (staticLines file.contents.length
              (requestGetFiletype (fileName uri)).bytes) file.contents)) ↔
          file.opens = true ∧ 0 < file.contents.length ∧ file.contents.length ≤ maxWrite ∧
            LinesFit (maxBuf - 1) file.contents))) := by
  have hpath : uriPath uri = uri := congrArg (·.2.2) (parseCgi_of_not hcgi)
  obtain ⟨_, hfits⟩ := hroom
  rw [hpath, parseCgi_of_not hcgi] at hfits
  unfold pageAround at hfits
  -- Room for a page is room for the name.
  have hname : (fileName uri).length < maxBuf := by omega
  have hinline := inline_fileName hasks.inline
  obtain ⟨hmissing, hfound⟩ := @serve_eq files uri socket cgi buff hasks hcgi hname rest
  constructor
  · intro hnone
    rw [Files.stat_of_none hnone] at hfits
    dsimp only at hfits
    exact @fetch_refuse socket files cgi buff hwrite _ ⟨fileName uri, hname⟩ "404"
      "File Not Found" "Server Error" 157 (hmissing hnone) hinline (by decide) (by decide)
      (by decide) (by decide) (by decide) hfits
  · intro file hfile
    have hstat := Files.stat_of_some hfile
    obtain ⟨hrefused, hserved⟩ := hfound file hfile
    constructor
    · intro hnot
      have hmode : file.stat.mode = file.mode := rfl
      rw [hstat] at hfits
      unfold handlePage at hfits
      dsimp only at hfits
      rw [hstat] at hfits
      dsimp only at hfits
      rw [if_neg (by decide), hmode, if_pos ((forbidden_iff file).mpr hnot)] at hfits
      exact @fetch_refuse socket files cgi buff hwrite _ ⟨fileName uri, hname⟩ "403" "Forbidden"
        "server could not run this CGI program" 177 (hrefused hnot) hinline (by decide) (by decide)
        (by decide) (by decide) (by decide) hfits
    · intro hreg hexec
      obtain ⟨c, hcname, hcsize, hserve⟩ := hserved hreg hexec
      rw [← hcname] at hfile ⊢
      exact fetch_static hwrite hserve hfile (by rw [hcsize, file.stat_size])

/-- The directory of the example: the file `a` with mode 0755 holds `"hi\n"`. -/
def hiFiles : Files := fun name =>
  if name = ascii "./a" then some ⟨0o100755, true, ascii "hi\n", by decide⟩ else none

/-- A connection that takes writes of up to `maxWrite` bytes and keeps all of them. -/
def wholeSocket : Socket := ⟨fun bytes => bytes.take maxWrite, fun bytes => bytes⟩

/-- The one line that asks for `/a` gets `"hi\n"`, and `/b` gets the page of a missing file. -/
theorem fetch_shown_hi :
    fetch wholeSocket hiFiles (fun _ _ => []) zeroBuffer (requestLine (ascii "/a")) =
        .ok (some (shown (staticLines 3 (ascii "text/plain")) (ascii "hi\n"))) ∧
      serve wholeSocket hiFiles (fun _ _ => []) zeroBuffer (requestLine (ascii "/b")) =
        .ok (some (errorPage (ascii "./b") "404" "File Not Found" "Server Error")) := by
  have hwrite : wholeSocket.Writes := fun _ => rfl
  have hasks : Asks (ascii "/a") := ⟨by decide, by decide, by decide, by decide⟩
  have hasks' : Asks (ascii "/b") := ⟨by decide, by decide, by decide, by decide⟩
  have hroom : Room hiFiles.stat hiFiles.stat (ascii "/a") := by
    unfold Room
    decide +kernel
  have hroom' : Room hiFiles.stat hiFiles.stat (ascii "/b") := by
    unfold Room
    decide +kernel
  constructor
  · have h := (fetch_shown wholeSocket hiFiles (fun _ _ => []) zeroBuffer (ascii "/a") [] hwrite
      hasks (by decide) hroom).2 _ rfl
    rw [List.append_nil] at h
    exact ((h.2 (by decide) (by decide)).2.2 (fun _ => rfl) (by decide)).mpr (by decide)
  · have h := (fetch_shown wholeSocket hiFiles (fun _ _ => []) zeroBuffer (ascii "/b") [] hwrite
      hasks' (by decide) hroom').1 (by decide)
    rw [List.append_nil] at h
    exact h.1

end Requests

end OsLab.Web
