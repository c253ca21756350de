import Mathlib.Data.List.Infix
import OsLab.Lib.Words
import OsLab.Web.IoHelper
import OsLab.Web.Queue

/-!
# Reading a request

`view_request`, `request_parse_uri`, `request_error` and `request_handle` up to the serving of the
file, on buffers of `MAXBUF` bytes. What C leaves undefined is a fault. `stat` is a parameter, and
writing to a client works.

* **`Fault`**, **`Buffer`**, **`store`** -- the three faults, a buffer, and writing a string to one.
* **`strtok`**, **`strchr`**, **`parseCgi`**, **`requestParseUri`** -- how a uri is found and taken
  apart; the file name of an empty uri reads in front of it.
* **`requestError`**, **`viewRequest`**, **`requestHandle`** -- the pages with their texts, and the
  two functions that send them.
* **`requestParseUri_path`**, **`requestError_overflow_iff`** -- which file names and which pages
  fit.
-/

namespace OsLab.Web

open Words

/-- The bytes of an ASCII text. -/
def ascii (text : String) : List UInt8 := text.toList.map fun c => UInt8.ofNat c.toNat

def space : UInt8 := 32

def slash : UInt8 := 47

def questionMark : UInt8 := 63

inductive Fault where
  /-- A string is read that has no `'\0'` in its buffer. -/
  | unterminated
  /-- `strstr` is called on NULL. -/
  | nullUri
  /-- `uri[-1]` is read. -/
  | beforeUri
  /-- A string is written that does not fit its buffer. -/
  | overflow
  deriving DecidableEq

/-- `char[MAXBUF]` -/
structure Buffer where
  bytes : List UInt8
  size : bytes.length = maxBuf

/-- The string at the start of a buffer. -/
def Buffer.string (buff : Buffer) : Except Fault CString :=
  if h : 0 ∈ buff.bytes then
    .ok ⟨buff.bytes.takeWhile (· ≠ 0), by
      rw [← buff.size]
      refine Nat.lt_of_le_of_ne (List.takeWhile_prefix _).length_le ?_
      intro hlength
      rw [← (List.takeWhile_prefix _).eq_of_length hlength] at h
      simpa using List.mem_takeWhile_imp h⟩
  else
    .error .unterminated

/-- A string written to a buffer by `strcpy`, `strcat` or `sprintf`. -/
def store (string : List UInt8) : Except Fault CString :=
  if h : string.length < maxBuf then .ok ⟨string, h⟩ else .error .overflow

/-- The bytes that a call of `readline` writes. -/
def ReadLine.written (r : ReadLine) : List UInt8 :=
  if r.terminated then r.stored ++ [0] else r.stored

theorem Reads.written_length {room n : Nat} {input : List UInt8} {r : ReadLine}
    (h : Reads room n input r) : r.written.length ≤ room + 1 := by
  have hstored : r.stored.length ≤ room := by
    cases h with
    | line hline hroom =>
      rw [List.length_append]
      exact hroom
    | full hline hroom => exact Nat.le_of_eq hroom
    | eof hline hroom hmore => exact Nat.le_of_lt hroom
    | lost hline hroom hone => exact Nat.le_of_lt hroom
  unfold ReadLine.written
  split
  · rw [List.length_append]
    exact Nat.succ_le_succ hstored
  · exact Nat.le_succ_of_le hstored

/-- `buff` after `readline(fd, buff, MAXBUF)`. -/
def readInto (buff : Buffer) (input : List UInt8) : Buffer where
  bytes := (readline maxBuf input).written ++
    buff.bytes.drop (readline maxBuf input).written.length
  size := by
    have hle : (readline maxBuf input).written.length ≤ maxBuf :=
      (readline_reads maxBuf input).written_length
    rw [List.length_append, List.length_drop, buff.size]
    omega

/-- `strtok(s, " ")`: a token, and what `strtok(NULL, " ")` goes on with. -/
def strtok (s : List UInt8) : Option (List UInt8) × List UInt8 :=
  match s.dropWhile (· = space) with
  | [] => (none, [])
  | c :: s => (some ((c :: s).takeWhile (· ≠ space)), ((c :: s).dropWhile (· ≠ space)).tail)

/-- `strchr(s, c)`: what stands in front of the first `c` and what behind it. -/
def strchr (s : List UInt8) (c : UInt8) : Option (List UInt8 × List UInt8) :=
  if c ∈ s then some (s.takeWhile (· ≠ c), (s.dropWhile (· ≠ c)).tail) else none

/-! ## Parsing the uri -/

/-- The fields that `request_parse_uri` sets; the uri is cut in place. -/
structure Parsed where
  dynamic : Int32
  uri : List UInt8
  filename : CString
  cgiargs : CString
  deriving DecidableEq

def dotCgi : List UInt8 := ascii ".cgi"

/-- The first half of `request_parse_uri`: `dynamic`, the arguments, and the uri left. -/
def parseCgi (uri : List UInt8) : Int32 × List UInt8 × List UInt8 :=
  -- strstr(uri, ".cgi")
  if dotCgi <:+: uri then
    match strchr uri questionMark with
    | some (path, args) => (1, args, path)
    | none => (1, [], uri)
  else
    (0, [], uri)

/-- The second half of `request_parse_uri`: the file name. -/
def parseFilename (uri : List UInt8) : Except Fault CString := do
  let filename ← store (ascii "." ++ uri)
  -- uri[strlen(uri) - 1]
  let last ← uri.getLast?.elim (.error .beforeUri) .ok
  if last = slash then
    store (filename.bytes ++ ascii "index.html")
  else
    return filename

def requestParseUri (uri : Option (List UInt8)) : Except Fault Parsed := do
  let uri ← uri.elim (.error .nullUri) .ok
  let (dynamic, args, uri) := parseCgi uri
  let cgiargs ← store args
  let filename ← parseFilename uri
  return ⟨dynamic, uri, filename, cgiargs⟩

/-! ## Error pages -/

/-- The body that `request_error` prints. -/
def errorBody (cause : List UInt8) (errnum shortmsg longmsg : String) : List UInt8 :=
  ascii "<!doctype html>\r\n" ++
  ascii "<head>\r\n" ++
  ascii "  <title>OSTEP WebServer Error</title>\r\n" ++
  ascii "</head>\r\n" ++
  ascii "<body>\r\n" ++
  ascii "  <h2>" ++ ascii errnum ++ ascii ": " ++ ascii shortmsg ++ ascii "</h2>\r\n" ++
  ascii "  <p>" ++ ascii longmsg ++ ascii ": " ++ cause ++ ascii "</p>\r\n" ++
  ascii "</body>\r\n" ++
  ascii "</html>\r\n"

def statusLine (errnum shortmsg : String) : List UInt8 :=
  ascii "HTTP/1.0 " ++ ascii errnum ++ ascii " " ++ ascii shortmsg ++ ascii "\r\n"

def lengthLine (length : Nat) : List UInt8 :=
  ascii "Content-Length: " ++ ascii (Nat.repr length) ++ ascii "\r\n\r\n"

/-- The strings that `request_error` writes to the client. -/
def requestError (cause : CString) (errnum shortmsg longmsg : String) :
    Except Fault (List CString) := do
  let body ← store (errorBody cause.bytes errnum shortmsg longmsg)
  let status ← store (statusLine errnum shortmsg)
  let type ← store (ascii "Content-Type: text/html\r\n")
  let length ← store (lengthLine body.bytes.length)
  return [status, type, length, body]

/-! ## Viewing and handling -/

/-- `struct stat` -/
structure Stat where
  size : Int64
  mode : UInt32

/-- The fields of a `connection_t` after `view_request`. Its tokens may be NULL. -/
structure Viewed extends Parsed where
  method : Option (List UInt8)
  version : Option (List UInt8)
  filetype : CString
  filesize : Int32
  mode : UInt32
  deriving DecidableEq

def requestGetFiletype (filename : List UInt8) : CString :=
  if ascii ".html" <:+: filename then
    ⟨ascii "text/html", by decide⟩
  else if ascii ".gif" <:+: filename then
    ⟨ascii "image/gif", by decide⟩
  else if ascii ".jpg" <:+: filename then
    ⟨ascii "image/jpeg", by decide⟩
  else
    ⟨ascii "text/plain", by decide⟩

/-- The second half of `view_request`, behind `request_parse_uri`. -/
def viewParsed (stat : List UInt8 → Option Stat) (token token2 : Option (List UInt8))
    (parsed : Parsed) : Except Fault (Int × Viewed) :=
  match stat parsed.filename.bytes with
  | none => do
    let _ ← requestError parsed.filename "404" "File Not Found" "Server Error"
    return (-1, ⟨parsed, token, token2, connectionInit.filetype, connectionInit.filesize,
      connectionInit.mode⟩)
  | some sbuff =>
    -- printf shows a missing version as "(null)"
    return (0, ⟨parsed, token, token2, requestGetFiletype parsed.uri, sbuff.size.toInt32,
      sbuff.mode⟩)

def viewRequest (stat : List UInt8 → Option Stat) (buff : Buffer) (input : List UInt8) :
    Except Fault (Int × Viewed) := do
  let buff ← (readInto buff input).string
  let (token, s) := strtok buff.bytes
  let (token1, s) := strtok s
  let (token2, _) := strtok s
  let parsed ← requestParseUri token1
  viewParsed stat token token2 parsed

/-- `S_ISREG` -/
def isReg (mode : UInt32) : Bool := mode &&& 0o170000 == 0o100000

/-- `S_IRUSR & mode` -/
def isReadable (mode : UInt32) : Bool := 0o400 &&& mode != 0

/-- `S_IXUSR & mode` -/
def isExecutable (mode : UInt32) : Bool := 0o100 &&& mode != 0

inductive Response where
  | error (strings : List CString)
  | dynamic
  | static

def requestHandle (stat : List UInt8 → Option Stat) (c : Viewed) : Except Fault Response :=
  match stat c.filename.bytes with
  | none => .error <$>
      requestError c.filename "404" "Not found" "server could not find this file"
  | some _ =>
    if c.dynamic = 1 then
      if !isReg c.mode || !isReadable c.mode then
        .error <$> requestError c.filename "403" "Forbidden" "server could not read this file"
      else
        .ok .dynamic
    else
      if !isReg c.mode || !isExecutable c.mode then
        .error <$>
          requestError c.filename "403" "Forbidden" "server could not run this CGI program"
      else
        .ok .static

variable {s uri path : List UInt8} {buff : Buffer} {input : List UInt8}

/-! ## Tokens -/

theorem strtok_eq (s : List UInt8) : words space s = [] ∧ strtok s = (none, []) ∨
    ∃ token rest, words space s = token :: words space rest ∧ strtok s = (some token, rest) := by
  rw [← words_dropWhile]
  unfold strtok
  split
  · next hnil =>
    rw [hnil]
    exact .inl ⟨words_nil, rfl⟩
  · next c rest hcons =>
    have hc : c ≠ space := by
      have hhead := List.head?_dropWhile_not (· = space) s
      rw [hcons] at hhead
      simpa using hhead
    refine .inr ⟨_, _, ?_, rfl⟩
    rw [hcons]
    refine words_takeWhile ?_
    rw [List.takeWhile_cons_of_pos (by simpa using hc)]
    exact List.cons_ne_nil _ _

/-- `strtok` takes the first word. -/
theorem strtok_fst (s : List UInt8) : (strtok s).1 = (words space s).head? := by
  rcases strtok_eq s with ⟨hwords, htok⟩ | ⟨token, rest, hwords, htok⟩
  · rw [hwords, htok]
    rfl
  · rw [hwords, htok]
    rfl

/-- The next call goes on with the other words. -/
theorem words_strtok (s : List UInt8) : words space (strtok s).2 = (words space s).tail := by
  rcases strtok_eq s with ⟨hwords, htok⟩ | ⟨token, rest, hwords, htok⟩
  · rw [hwords, htok]
    rfl
  · rw [hwords, htok]
    rfl

/-! ## File names -/

@[simp] theorem ok_bind {α β : Type} (a : α) (f : α → Except Fault β) :
    (Except.ok a >>= f) = f a := rfl

/-- A string that is shorter than the buffer is written. -/
theorem store_of_lt (h : s.length < maxBuf) : store s = .ok ⟨s, h⟩ := dif_pos h

/-- Any other one goes behind its end. -/
theorem store_of_le (h : maxBuf ≤ s.length) : store s = .error .overflow :=
  dif_neg (Nat.not_lt_of_le h)

/-- What is left of the uri. -/
def uriPath (uri : List UInt8) : List UInt8 := (parseCgi uri).2.2

def uriArgs (uri : List UInt8) : List UInt8 := (parseCgi uri).2.1

/-- `"index.html"` behind a slash. -/
def indexHtml (path : List UInt8) : List UInt8 :=
  if path.getLast? = some slash then ascii "index.html" else []

def fileName (path : List UInt8) : List UInt8 := ascii "." ++ path ++ indexHtml path

/-- Neither the uri that is left nor its arguments are longer than the uri. -/
theorem parseCgi_length (uri : List UInt8) :
    (uriPath uri).length ≤ uri.length ∧ (uriArgs uri).length ≤ uri.length := by
  unfold uriPath uriArgs parseCgi strchr
  have htake : (uri.takeWhile (· ≠ questionMark)).length ≤ uri.length :=
    (List.takeWhile_prefix _).length_le
  have hdrop : (uri.dropWhile (· ≠ questionMark)).length ≤ uri.length :=
    (List.dropWhile_suffix _).length_le
  split
  · split
    · next path args hchr =>
      split at hchr
      · cases hchr
        refine ⟨htake, ?_⟩
        dsimp only
        rw [List.length_tail]
        omega
      · cases hchr
    · exact ⟨Nat.le_refl _, Nat.zero_le _⟩
  · exact ⟨Nat.le_refl _, Nat.zero_le _⟩

/-- Nothing is left of a uri that begins with a question mark and holds `".cgi"`. -/
theorem uriPath_eq_nil_iff (hne : uri ≠ []) :
    uriPath uri = [] ↔ uri.head? = some questionMark ∧ dotCgi <:+: uri := by
  obtain ⟨c, rest, rfl⟩ := List.exists_cons_of_ne_nil hne
  unfold uriPath parseCgi strchr
  split
  · next hcgi =>
    rw [List.head?_cons, Option.some.injEq]
    split
    · next path args hchr =>
      split at hchr
      · cases hchr
        by_cases hc : c = questionMark
        · subst hc
          simp [hcgi]
        · simp [hc]
      · cases hchr
    · next hchr =>
      split at hchr
      · cases hchr
      · next hmem =>
        refine iff_of_false hne ?_
        intro h
        exact hmem (h.1 ▸ List.mem_cons_self)
  · next hcgi =>
    refine iff_of_false hne ?_
    intro h
    exact hcgi h.2

/-- The file name of a uri that is not empty is written; an empty one reads in front of it. -/
theorem parseFilename_eq (hpath : path.length + 1 < maxBuf) : parseFilename path =
    path.getLast?.elim (.error .beforeUri) fun _ => store (fileName path) := by
  have hdot : (ascii "." ++ path).length < maxBuf := by
    rw [List.length_append, Nat.add_comm]
    exact hpath
  unfold parseFilename fileName indexHtml
  rw [store_of_lt hdot]
  cases path.getLast? with
  | none => rfl
  | some last =>
    by_cases hlast : last = slash
    · rw [if_pos (congrArg some hlast)]
      exact if_pos hlast
    · rw [if_neg (fun h => hlast (Option.some.inj h)), List.append_nil, store_of_lt hdot]
      exact if_neg hlast

theorem store_ok {string : CString} (h : store s = .ok string) : string.bytes = s := by
  unfold store at h
  split at h
  · cases h
    rfl
  · cases h

theorem parseFilename_ok {filename : CString} (h : parseFilename path = .ok filename) :
    filename.bytes = fileName path := by
  rcases Nat.lt_or_ge (path.length + 1) maxBuf with hfits | hlong
  · rw [parseFilename_eq hfits] at h
    cases hlast : path.getLast? with
    | none =>
      rw [hlast] at h
      cases h
    | some last =>
      rw [hlast] at h
      exact store_ok h
  · have hdot : maxBuf ≤ (ascii "." ++ path).length := by
      rw [List.length_append, Nat.add_comm]
      exact hlong
    unfold parseFilename at h
    rw [store_of_le hdot] at h
    cases h

/-- Whenever a uri is parsed, this is its file name. -/
theorem requestParseUri_filename {parsed : Parsed} (h : requestParseUri (some uri) = .ok parsed) :
    parsed.filename.bytes = fileName (uriPath uri) := by
  have hparse : requestParseUri (some uri) =
      (store (uriArgs uri) >>= fun cgiargs => parseFilename (uriPath uri) >>= fun filename =>
        pure (⟨(parseCgi uri).1, uriPath uri, filename, cgiargs⟩ : Parsed)) := rfl
  rw [hparse] at h
  cases hargs : store (uriArgs uri) with
  | error fault =>
    rw [hargs] at h
    cases h
  | ok cgiargs =>
    rw [hargs, ok_bind] at h
    cases hname : parseFilename (uriPath uri) with
    | error fault =>
      rw [hname] at h
      cases h
    | ok filename =>
      rw [hname] at h
      cases h
      exact parseFilename_ok hname

/-- The arguments always fit; the file name decides. -/
theorem requestParseUri_eq (huri : uri.length + 1 < maxBuf) : ∃ cgiargs,
    requestParseUri (some uri) = (parseFilename (uriPath uri)).map fun filename =>
      ⟨(parseCgi uri).1, uriPath uri, filename, cgiargs⟩ := by
  have hargs : (uriArgs uri).length < maxBuf := by
    have := (parseCgi_length uri).2
    omega
  refine ⟨⟨uriArgs uri, hargs⟩, ?_⟩
  have hparse : requestParseUri (some uri) =
      (store (uriArgs uri) >>= fun cgiargs => parseFilename (uriPath uri) >>= fun filename =>
        pure (⟨(parseCgi uri).1, uriPath uri, filename, cgiargs⟩ : Parsed)) := rfl
  rw [hparse, store_of_lt hargs]
  cases parseFilename (uriPath uri) with
  | error fault => rfl
  | ok filename => rfl

/-- A uri of which nothing is left reads in front of it. -/
theorem requestParseUri_beforeUri (huri : uri.length + 1 < maxBuf) (hpath : uriPath uri = []) :
    requestParseUri (some uri) = .error .beforeUri := by
  obtain ⟨cgiargs, hparse⟩ := requestParseUri_eq huri
  rw [hparse, hpath]
  rfl

/-- A uri of which something is left is parsed as far as its file name fits. -/
theorem requestParseUri_path (huri : uri.length + 1 < maxBuf) (hpath : uriPath uri ≠ []) :
    ∃ cgiargs, requestParseUri (some uri) = (store (fileName (uriPath uri))).map fun filename =>
      ⟨(parseCgi uri).1, uriPath uri, filename, cgiargs⟩ := by
  obtain ⟨cgiargs, hparse⟩ := requestParseUri_eq huri
  have hlength : (uriPath uri).length + 1 < maxBuf := by
    have hle := (parseCgi_length uri).1
    omega
  refine ⟨cgiargs, ?_⟩
  rw [hparse, parseFilename_eq hlength, List.getLast?_eq_some_getLast hpath]
  rfl

/-- A uri whose file name fits is parsed. -/
theorem requestParseUri_ok (huri : uri.length + 1 < maxBuf) (hpath : uriPath uri ≠ [])
    (hfits : (fileName (uriPath uri)).length < maxBuf) : ∃ parsed,
      requestParseUri (some uri) = .ok parsed ∧ parsed.filename.bytes = fileName (uriPath uri) ∧
        parsed.dynamic = (parseCgi uri).1 := by
  obtain ⟨cgiargs, hparse⟩ := requestParseUri_path huri hpath
  rw [hparse, store_of_lt hfits]
  exact ⟨_, rfl, rfl, rfl⟩

/-- A file name that does not fit is written behind its buffer. -/
theorem requestParseUri_overflow (huri : uri.length + 1 < maxBuf) (hpath : uriPath uri ≠ [])
    (hlong : maxBuf ≤ (fileName (uriPath uri)).length) :
    requestParseUri (some uri) = .error .overflow := by
  obtain ⟨cgiargs, hparse⟩ := requestParseUri_path huri hpath
  rw [hparse, store_of_le hlong]
  rfl

/-! ## Error pages that fit -/

@[simp] theorem ascii_length (text : String) : (ascii text).length = text.length := by
  unfold ascii
  rw [List.length_map, String.length_toList]

/-- The bytes of a page: its own, its texts and its cause. -/
theorem errorBody_length (cause : List UInt8) (errnum shortmsg longmsg : String) :
    (errorBody cause errnum shortmsg longmsg).length =
      128 + errnum.length + shortmsg.length + longmsg.length + cause.length := by
  unfold errorBody
  simp only [List.length_append, ascii_length]
  have hlengths : "<!doctype html>\r\n".length = 17 ∧ "<head>\r\n".length = 8 ∧
      "  <title>OSTEP WebServer Error</title>\r\n".length = 40 ∧ "</head>\r\n".length = 9 ∧
      "<body>\r\n".length = 8 ∧ "  <h2>".length = 6 ∧ ": ".length = 2 ∧ "</h2>\r\n".length = 7 ∧
      "  <p>".length = 5 ∧ "</p>\r\n".length = 6 ∧ "</body>\r\n".length = 9 ∧
      "</html>\r\n".length = 9 := by decide
  omega

variable {errnum shortmsg longmsg : String} {cause : CString}

/-- A length below `MAXBUF` has at most four digits. -/
theorem lengthLine_fits {length : Nat} (h : length < maxBuf) :
    (lengthLine length).length < maxBuf := by
  have hdigits : (Nat.repr length).length ≤ 4 := by
    rw [Nat.length_repr_le_iff (by decide)]
    exact Nat.lt_trans h (by decide)
  have htexts : "Content-Length: ".length = 16 ∧ "\r\n\r\n".length = 4 := by decide
  have hmax : maxBuf = 8192 := rfl
  unfold lengthLine
  simp only [List.length_append, ascii_length]
  omega

/-- The page fits when `k` bytes stand around its cause and there is room for them. -/
theorem requestError_ok {k : Nat} (hstatus : (statusLine errnum shortmsg).length < maxBuf)
    (htexts : 128 + errnum.length + shortmsg.length + longmsg.length = k)
    (hfits : cause.bytes.length + k < maxBuf) :
    ∃ strings, requestError cause errnum shortmsg longmsg = .ok strings := by
  have hbody : (errorBody cause.bytes errnum shortmsg longmsg).length < maxBuf := by
    rw [errorBody_length]
    omega
  have htype : (ascii "Content-Type: text/html\r\n").length < maxBuf := by decide
  unfold requestError
  rw [store_of_lt hbody, ok_bind, store_of_lt hstatus, ok_bind, store_of_lt htype, ok_bind,
    store_of_lt (lengthLine_fits hbody), ok_bind]
  exact ⟨_, rfl⟩

theorem requestError_overflow {k : Nat}
    (htexts : 128 + errnum.length + shortmsg.length + longmsg.length = k)
    (hlong : maxBuf ≤ cause.bytes.length + k) :
    requestError cause errnum shortmsg longmsg = .error .overflow := by
  have hbody : maxBuf ≤ (errorBody cause.bytes errnum shortmsg longmsg).length := by
    rw [errorBody_length]
    omega
  unfold requestError
  rw [store_of_le hbody]
  rfl

/-- And only then. -/
theorem requestError_overflow_iff {k : Nat} (hstatus : (statusLine errnum shortmsg).length < maxBuf)
    (htexts : 128 + errnum.length + shortmsg.length + longmsg.length = k) :
    requestError cause errnum shortmsg longmsg = .error .overflow ↔
      maxBuf ≤ cause.bytes.length + k := by
  constructor
  · intro h
    by_contra hfits
    obtain ⟨strings, hok⟩ := requestError_ok hstatus htexts (Nat.lt_of_not_le hfits)
    rw [hok] at h
    cases h
  · exact requestError_overflow htexts

/-! ## The second half of `view_request` -/

variable {stat : List UInt8 → Option Stat} (token token2 : Option (List UInt8)) {parsed : Parsed}

/-- A file that is there is viewed, with its mode. -/
theorem viewParsed_found {sbuff : Stat} (hstat : stat parsed.filename.bytes = some sbuff) :
    ∃ viewed, viewParsed stat token token2 parsed = .ok (0, viewed) ∧ viewed.toParsed = parsed ∧
      viewed.mode = sbuff.mode := by
  unfold viewParsed
  rw [hstat]
  exact ⟨_, rfl, rfl, rfl⟩

/-- The page for a missing file has 157 bytes around the file name. -/
theorem viewParsed_missing (hstat : stat parsed.filename.bytes = none)
    (hfits : parsed.filename.bytes.length + 157 < maxBuf) :
    ∃ viewed, viewParsed stat token token2 parsed = .ok (-1, viewed) := by
  obtain ⟨strings, hstrings⟩ := @requestError_ok "404" "File Not Found" "Server Error"
    parsed.filename 157 (by decide) (by decide) hfits
  unfold viewParsed
  rw [hstat]
  dsimp only
  rw [hstrings]
  exact ⟨_, rfl⟩

theorem viewParsed_overflow (hstat : stat parsed.filename.bytes = none)
    (hlong : maxBuf ≤ parsed.filename.bytes.length + 157) :
    viewParsed stat token token2 parsed = .error .overflow := by
  have hpage : requestError parsed.filename "404" "File Not Found" "Server Error" =
      .error .overflow := requestError_overflow (by decide) hlong
  unfold viewParsed
  rw [hstat]
  dsimp only
  rw [hpage]
  rfl

end OsLab.Web
