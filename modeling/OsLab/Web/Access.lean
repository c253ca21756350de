import OsLab.Web.Overflow

/-!
# Who gets a file

A uri with `".cgi"` in it names a program. `request_handle` asks whether a program can be read and
whether any other file can be executed, where its messages say it the other way round.

* **`respond`**, **`MayRun`**, **`MaySend`** -- the answer to a uri, and what the permissions of a
  file allow.
* **`RightAnswer`**, **`SafeAnswer`** -- what an answer should be, and the half of it that forbids.
* **`Answers`**, **`respond_answers`** -- the answer that the code gives, when there is room for its
  page.
* **`SameBits`**, **`respond_right_iff`**, **`respond_swapped`** -- where the two agree, and where
  they do not.
-/

namespace OsLab.Web

variable {stat stat' : List UInt8 → Option Stat} {token token2 : Option (List UInt8)}
  {uri : List UInt8} {mode : Option UInt32} {response : Response} {c : Viewed}

/-- `request_parse_uri`, the rest of `view_request`, and `request_handle` if that returns 0. -/
def respond (stat stat' : List UInt8 → Option Stat) (token token2 : Option (List UInt8))
    (uri : List UInt8) : Except Fault Response := do
  let parsed ← requestParseUri (some uri)
  let (rc, c) ← viewParsed stat token token2 parsed
  if rc = 0 then
    requestHandle stat' c
  else
    -- the page that `view_request` has sent
    .error <$> requestError parsed.filename "404" "File Not Found" "Server Error"

/-- The mode that `view_request` has found, if `request_handle` finds the file too. -/
def fileMode (stat stat' : List UInt8 → Option Stat) (filename : List UInt8) : Option UInt32 := do
  let sbuff ← stat filename
  let _ ← stat' filename
  return sbuff.mode

/-! ## Right answers -/

/-- A regular file with a permission. -/
def Permits (permission : UInt32 → Bool) (mode : Option UInt32) : Prop :=
  ∃ m, mode = some m ∧ isReg m = true ∧ permission m = true

/-- The uri names a program that may be executed. As `strstr` sees it, a uri names a program when
`".cgi"` occurs anywhere in it, also behind the `?`: `/a?x.cgi` names the program `./a`. -/
def MayRun (uri : List UInt8) (mode : Option UInt32) : Prop :=
  dotCgi <:+: uri ∧ Permits isExecutable mode

/-- The uri names a file that is no program in that sense and may be read. -/
def MaySend (uri : List UInt8) (mode : Option UInt32) : Prop :=
  ¬ dotCgi <:+: uri ∧ Permits isReadable mode

/-- One page with a 404 or a 403. -/
def IsRefusal (response : Response) : Prop :=
  ∃ cause errnum shortmsg longmsg strings, (errnum = "404" ∨ errnum = "403") ∧
    requestError cause errnum shortmsg longmsg = .ok strings ∧ response = .error strings

/-- Only programs that may be executed are run, other files are sent if they may be read, and
everything else is refused. -/
structure SafeAnswer (uri : List UInt8) (mode : Option UInt32) (response : Response) : Prop where
  program : response = .dynamic → MayRun uri mode
  file : response = .static ↔ MaySend uri mode
  refused : ¬ MayRun uri mode → ¬ MaySend uri mode → IsRefusal response

/-- Programs that may be executed are run, too. -/
structure RightAnswer (uri : List UInt8) (mode : Option UInt32) (response : Response) : Prop
    extends SafeAnswer uri mode response where
  runs : MayRun uri mode → response = .dynamic

/-! ## The answers that are given -/

/-- The test that `request_handle` makes. -/
def tested (uri : List UInt8) : UInt32 → Bool :=
  if dotCgi <:+: uri then isReadable else isExecutable

/-- The answer when there is room for its page. -/
structure Answers (uri : List UInt8) (mode : Option UInt32) (response : Response) : Prop where
  program : response = .dynamic ↔ dotCgi <:+: uri ∧ Permits (tested uri) mode
  file : response = .static ↔ ¬ dotCgi <:+: uri ∧ Permits (tested uri) mode
  refused : ¬ Permits (tested uri) mode → IsRefusal response

/-- `dynamic` is set exactly if `".cgi"` occurs somewhere in the uri. -/
theorem parseCgi_dynamic (uri : List UInt8) : (parseCgi uri).1 = 1 ↔ dotCgi <:+: uri := by
  unfold parseCgi
  split
  · next hcgi =>
    refine iff_of_true ?_ hcgi
    split <;> rfl
  · next hcgi => exact iff_of_false (fun h => absurd h (by decide : (0 : Int32) ≠ 1)) hcgi

theorem permits_some {permission : UInt32 → Bool} {m : UInt32} :
    Permits permission (some m) ↔ isReg m = true ∧ permission m = true := by
  constructor
  · rintro ⟨_, heq, h⟩
    obtain rfl := Option.some.inj heq
    exact h
  · intro h
    exact ⟨m, rfl, h⟩

theorem not_permits_none {permission : UInt32 → Bool} : ¬ Permits permission none := by
  rintro ⟨_, heq, _⟩
  cases heq

/-- A page is sent for a file that does not pass. -/
theorem answers_refused {cause : CString} {errnum shortmsg longmsg : String}
    {strings : List CString} (herrnum : errnum = "404" ∨ errnum = "403")
    (hpage : requestError cause errnum shortmsg longmsg = .ok strings)
    (hnot : ¬ Permits (tested uri) mode) : Answers uri mode (.error strings) where
  program := iff_of_false (fun h => by cases h) fun h => hnot h.2
  file := iff_of_false (fun h => by cases h) fun h => hnot h.2
  refused _ := ⟨cause, errnum, shortmsg, longmsg, strings, herrnum, hpage, rfl⟩

/-- The two branches of `request_handle`: the test is made, and its page is sent or the file
served. -/
theorem gate_answers {m : UInt32} {cause : CString} {longmsg : String}
    (hserved : response = .dynamic ∧ dotCgi <:+: uri ∨ response = .static ∧ ¬ dotCgi <:+: uri)
    (hpage : (!isReg m || !tested uri m) = true →
      ∃ strings, requestError cause "403" "Forbidden" longmsg = .ok strings) :
    ∃ response', (if !isReg m || !tested uri m then
        .error <$> requestError cause "403" "Forbidden" longmsg else .ok response) =
      (.ok response' : Except Fault Response) ∧ Answers uri (some m) response' := by
  split
  · next hfails =>
    obtain ⟨strings, hstrings⟩ := hpage hfails
    rw [hstrings]
    refine ⟨_, rfl, answers_refused (.inr rfl) hstrings ?_⟩
    rw [permits_some]
    simpa [or_iff_not_imp_left] using hfails
  · next hpasses =>
    have hpermits : Permits (tested uri) (some m) := by
      rw [permits_some]
      simpa using hpasses
    refine ⟨response, rfl, ?_⟩
    rcases hserved with ⟨rfl, hcgi⟩ | ⟨rfl, hcgi⟩
    · exact ⟨iff_of_true rfl ⟨hcgi, hpermits⟩, iff_of_false (fun h => by cases h) fun h => h.1 hcgi,
        fun hnot => absurd hpermits hnot⟩
    · exact ⟨iff_of_false (fun h => by cases h) fun h => hcgi h.1, iff_of_true rfl ⟨hcgi, hpermits⟩,
        fun hnot => absurd hpermits hnot⟩

/-- `request_handle` gives its answer, if there is room for the page. -/
theorem requestHandle_answers (hdynamic : c.dynamic = 1 ↔ dotCgi <:+: uri)
    (hfits : c.filename.bytes.length + handlePage stat c.filename.bytes c.dynamic c.mode < maxBuf) :
    ∃ response, requestHandle stat c = .ok response ∧
      Answers uri ((stat c.filename.bytes).map fun _ => c.mode) response := by
  unfold handlePage at hfits
  unfold requestHandle
  cases hstat : stat c.filename.bytes with
  | none =>
    rw [hstat] at hfits
    obtain ⟨strings, hpage⟩ := @requestError_ok "404" "Not found" "server could not find this file"
      c.filename 171 (by decide) (by decide) hfits
    dsimp only
    rw [hpage]
    exact ⟨_, rfl, answers_refused (.inl rfl) hpage not_permits_none⟩
  | some sbuf =>
    rw [hstat] at hfits
    dsimp only at hfits ⊢
    by_cases hcgi : dotCgi <:+: uri
    · have htest : isReadable = tested uri := (if_pos hcgi).symm
      rw [if_pos (hdynamic.mpr hcgi), htest] at hfits ⊢
      refine gate_answers (.inl ⟨rfl, hcgi⟩) fun hfails => ?_
      rw [if_pos hfails] at hfits
      exact requestError_ok (by decide) (by decide) hfits
    · have htest : isExecutable = tested uri := (if_neg hcgi).symm
      rw [if_neg fun h => hcgi (hdynamic.mp h), htest] at hfits ⊢
      refine gate_answers (.inr ⟨rfl, hcgi⟩) fun hfails => ?_
      rw [if_pos hfails] at hfits
      exact requestError_ok (by decide) (by decide) hfits

/-! ## Room for the answer -/

/-- The bytes that the answer needs in its buffers. -/
def Room (stat stat' : List UInt8 → Option Stat) (uri : List UInt8) : Prop :=
  ¬ (uri.head? = some questionMark ∧ dotCgi <:+: uri) ∧
    (fileName (uriPath uri)).length +
      pageAround stat stat' (fileName (uriPath uri)) (parseCgi uri).1 < maxBuf

/-- So does the whole way from the uri, where `view_request` may have sent a page before. -/
theorem respond_answers (token token2 : Option (List UInt8)) (hne : uri ≠ [])
    (huri : uri.length + 1 < maxBuf) (hroom : Room stat stat' uri) :
    ∃ response, respond stat stat' token token2 uri = .ok response ∧
      Answers uri (fileMode stat stat' (fileName (uriPath uri))) response := by
  obtain ⟨hpath, hfits⟩ := hroom
  have hleft : uriPath uri ≠ [] := fun hnil => hpath ((uriPath_eq_nil_iff hne).mp hnil)
  obtain ⟨parsed, hparse, hfilename, hdynamic⟩ := requestParseUri_ok huri hleft (by omega)
  unfold respond fileMode
  rw [hparse, ok_bind]
  rw [← hfilename, ← hdynamic] at hfits
  rw [← hfilename]
  unfold pageAround at hfits
  -- `view_request` asks first, and sends the page for a missing file.
  cases hstat : stat parsed.filename.bytes with
  | none =>
    rw [hstat] at hfits
    obtain ⟨viewed, hview⟩ := viewParsed_missing token token2 hstat hfits
    obtain ⟨strings, hpage⟩ := @requestError_ok "404" "File Not Found" "Server Error"
      parsed.filename 157 (by decide) (by decide) hfits
    rw [hview, ok_bind]
    dsimp only
    rw [if_neg (by decide), hpage]
    exact ⟨_, rfl, answers_refused (.inl rfl) hpage not_permits_none⟩
  | some sbuff =>
    rw [hstat] at hfits
    obtain ⟨viewed, hview, rfl, hmode⟩ := viewParsed_found token token2 hstat
    rw [hview, ok_bind]
    dsimp only at hfits ⊢
    rw [← hmode] at hfits
    rw [if_pos rfl]
    have hcgi : viewed.dynamic = 1 ↔ dotCgi <:+: uri := by
      rw [hdynamic]
      exact parseCgi_dynamic uri
    obtain ⟨response, hhandle, hanswers⟩ := requestHandle_answers hcgi hfits
    refine ⟨response, hhandle, ?_⟩
    rw [hmode] at hanswers
    -- `request_handle` asks again, and the file may be gone.
    cases hstat' : stat' viewed.filename.bytes with
    | none =>
      rw [hstat'] at hanswers
      exact hanswers
    | some sbuf =>
      rw [hstat'] at hanswers
      exact hanswers

/-- Without room nothing is defined, for the page is written behind the end of its buffer. -/
theorem room_of_respond (hne : uri ≠ []) (huri : uri.length + 1 < maxBuf)
    (h : respond stat stat' token token2 uri = .ok response) : Room stat stat' uri := by
  have hleft : uriPath uri ≠ [] := by
    intro hnil
    unfold respond at h
    rw [requestParseUri_beforeUri huri hnil] at h
    cases h
  refine ⟨fun hmark => hleft ((uriPath_eq_nil_iff hne).mpr hmark), ?_⟩
  rcases Nat.lt_or_ge (fileName (uriPath uri)).length maxBuf with hfits | hlong
  · obtain ⟨parsed, hparse, hfilename, hdynamic⟩ := requestParseUri_ok huri hleft hfits
    rw [← hfilename, ← hdynamic, ← viewParsed_fits_iff token token2]
    unfold respond at h
    rw [hparse, ok_bind] at h
    constructor
    · intro hover
      rw [hover] at h
      cases h
    · intro c hview hover
      rw [hview, ok_bind] at h
      dsimp only at h
      rw [if_pos rfl, hover] at h
      cases h
  · unfold respond at h
    rw [requestParseUri_overflow huri hleft hlong] at h
    cases h

/-! ## When the answer is right -/

/-- The owner of a regular file may read it exactly if he may execute it. -/
def SameBits (mode : Option UInt32) : Prop :=
  ∀ m, mode = some m → isReg m = true → isReadable m = isExecutable m

/-- A regular file that may be read may be executed, and conversely if it is no program. -/
def SafeBits (uri : List UInt8) (mode : Option UInt32) : Prop :=
  ∀ m, mode = some m → isReg m = true → (isReadable m = true → isExecutable m = true) ∧
    (¬ dotCgi <:+: uri → isExecutable m = true → isReadable m = true)

/-- The answer is safe exactly if the tests, swapped as they are, let nothing through that they
should not. -/
theorem Answers.safe_iff (h : Answers uri mode response) :
    SafeAnswer uri mode response ↔ SafeBits uri mode := by
  have hprogram := h.program
  have hfile := h.file
  have hrefused := h.refused
  unfold tested at hprogram hfile hrefused
  constructor
  -- The code runs what may be read and sends what may be executed; if that is safe, the permissions
  -- agree so far.
  · rintro ⟨hrun, hsend, _⟩ m rfl hreg
    by_cases hcgi : dotCgi <:+: uri
    · rw [if_pos hcgi] at hprogram
      refine ⟨fun hread => ?_, fun hnot => absurd hcgi hnot⟩
      exact (permits_some.mp (hrun (hprogram.mpr ⟨hcgi, permits_some.mpr ⟨hreg, hread⟩⟩)).2).2
    · rw [if_neg hcgi] at hfile
      constructor
      · intro hread
        have hstatic := hsend.mpr ⟨hcgi, permits_some.mpr ⟨hreg, hread⟩⟩
        exact (permits_some.mp (hfile.mp hstatic).2).2
      · intro _ hexecute
        have hstatic := hfile.mpr ⟨hcgi, permits_some.mpr ⟨hreg, hexecute⟩⟩
        exact (permits_some.mp (hsend.mp hstatic).2).2
  -- For a program one direction is enough, for a file that is sent it takes both.
  · intro hbits
    by_cases hcgi : dotCgi <:+: uri
    · rw [if_pos hcgi] at hprogram hfile hrefused
      have hexecutes : Permits isReadable mode → Permits isExecutable mode := by
        rintro ⟨m, rfl, hreg, hread⟩
        exact ⟨m, rfl, hreg, (hbits m rfl hreg).1 hread⟩
      refine ⟨fun hdynamic => ⟨hcgi, hexecutes (hprogram.mp hdynamic).2⟩, ?_, ?_⟩
      · rw [hfile]
        exact iff_of_false (fun h => h.1 hcgi) fun h => h.1 hcgi
      · intro hrun _
        exact hrefused fun hread => hrun ⟨hcgi, hexecutes hread⟩
    · rw [if_neg hcgi] at hprogram hfile hrefused
      have hsame : Permits isExecutable mode ↔ Permits isReadable mode := by
        constructor
        · rintro ⟨m, rfl, hreg, hexecute⟩
          exact ⟨m, rfl, hreg, (hbits m rfl hreg).2 hcgi hexecute⟩
        · rintro ⟨m, rfl, hreg, hread⟩
          exact ⟨m, rfl, hreg, (hbits m rfl hreg).1 hread⟩
      refine ⟨fun hdynamic => absurd (hprogram.mp hdynamic).1 hcgi, ?_, ?_⟩
      · rw [hfile, hsame]
        rfl
      · intro _ hsend
        exact hrefused fun hexecute => hsend ⟨hcgi, hsame.mp hexecute⟩

/-- The answer is right exactly if both tests come to the same. -/
theorem Answers.right_iff (h : Answers uri mode response) :
    RightAnswer uri mode response ↔ SameBits mode := by
  have hprogram := h.program
  unfold tested at hprogram
  constructor
  · rintro ⟨hsafe, hruns⟩ m rfl hreg
    obtain ⟨hread, hexecute⟩ := h.safe_iff.mp hsafe m rfl hreg
    refine Bool.eq_iff_iff.mpr ⟨hread, fun hx => ?_⟩
    by_cases hcgi : dotCgi <:+: uri
    · rw [if_pos hcgi] at hprogram
      have hdynamic := hruns ⟨hcgi, permits_some.mpr ⟨hreg, hx⟩⟩
      exact (permits_some.mp (hprogram.mp hdynamic).2).2
    · exact hexecute hcgi hx
  · intro hbits
    have hsafe : SafeBits uri mode := fun m hm hreg =>
      ⟨fun hread => hbits m hm hreg ▸ hread, fun _ hexecute => (hbits m hm hreg).symm ▸ hexecute⟩
    refine ⟨h.safe_iff.mpr hsafe, ?_⟩
    rintro ⟨hcgi, m, rfl, hreg, hexecute⟩
    rw [if_pos hcgi] at hprogram
    exact hprogram.mpr ⟨hcgi, permits_some.mpr ⟨hreg, (hbits m rfl hreg).symm ▸ hexecute⟩⟩

/-- What holds of the answer is decided by the permissions, once there is room for it. -/
theorem respond_iff {P : Response → Prop} {bits : Prop} (hne : uri ≠ [])
    (huri : uri.length + 1 < maxBuf)
    (hanswers : ∀ response, Answers uri (fileMode stat stat' (fileName (uriPath uri))) response →
      (P response ↔ bits)) :
    (∃ response, respond stat stat' token token2 uri = .ok response ∧ P response) ↔
      Room stat stat' uri ∧ bits := by
  constructor
  · rintro ⟨response, hrespond, hresponse⟩
    have hroom := room_of_respond hne huri hrespond
    obtain ⟨response', hrespond', h⟩ := respond_answers token token2 hne huri hroom
    rw [hrespond] at hrespond'
    cases hrespond'
    exact ⟨hroom, (hanswers response h).mp hresponse⟩
  · rintro ⟨hroom, hbits⟩
    obtain ⟨response, hrespond, h⟩ := respond_answers token token2 hne huri hroom
    exact ⟨response, hrespond, (hanswers response h).mpr hbits⟩

/-- **When the answer is right.** Exactly when the two permissions of a regular file are the same.
What is sent and run is safe also for a program that may be executed but not read. -/
theorem respond_right_iff (stat stat' : List UInt8 → Option Stat)
    (token token2 : Option (List UInt8)) (uri : List UInt8) (hne : uri ≠ [])
    (huri : uri.length + 1 < maxBuf) :
    ((∃ response, respond stat stat' token token2 uri = .ok response ∧
        RightAnswer uri (fileMode stat stat' (fileName (uriPath uri))) response) ↔
      Room stat stat' uri ∧ SameBits (fileMode stat stat' (fileName (uriPath uri)))) ∧
    ((∃ response, respond stat stat' token token2 uri = .ok response ∧
        SafeAnswer uri (fileMode stat stat' (fileName (uriPath uri))) response) ↔
      Room stat stat' uri ∧ SafeBits uri (fileMode stat stat' (fileName (uriPath uri)))) :=
  ⟨respond_iff hne huri fun _ h => h.right_iff, respond_iff hne huri fun _ h => h.safe_iff⟩

/-- A file with mode 0755. -/
theorem respond_right_iff_both : ∃ response,
    respond (fun _ => some ⟨5, 0o100755⟩) (fun _ => some ⟨5, 0o100755⟩) none none (ascii "/a") =
      .ok response ∧
    RightAnswer (ascii "/a") (some 0o100755) response := by
  have hroom : Room (fun _ => some ⟨5, 0o100755⟩) (fun _ => some ⟨5, 0o100755⟩) (ascii "/a") := by
    unfold Room
    decide +kernel
  have hbits : SameBits (some 0o100755) := by
    rintro _ ⟨⟩ _
    rfl
  exact (respond_right_iff (fun _ => some ⟨5, 0o100755⟩) (fun _ => some ⟨5, 0o100755⟩) none none
    (ascii "/a") (by decide) (by decide)).1.mpr ⟨hroom, hbits⟩

/-- A file with mode 0644 is refused, and a program with mode 0644 is run. -/
theorem respond_swapped :
    (¬ ∃ response, respond (fun _ => some ⟨5, 0o100644⟩) (fun _ => some ⟨5, 0o100644⟩) none none
      (ascii "/a") = .ok response ∧ SafeAnswer (ascii "/a") (some 0o100644) response) ∧
    ¬ ∃ response, respond (fun _ => some ⟨5, 0o100644⟩) (fun _ => some ⟨5, 0o100644⟩) none none
      (ascii "/a.cgi") = .ok response ∧ SafeAnswer (ascii "/a.cgi") (some 0o100644) response := by
  have hbits : ∀ uri, ¬ SafeBits uri (some 0o100644) :=
    fun uri h => absurd ((h _ rfl (by decide)).1 (by decide)) (by decide)
  constructor
  · intro h
    exact hbits _ ((respond_iff (by decide) (by decide) fun _ hanswers => hanswers.safe_iff).mp h).2
  · intro h
    exact hbits _ ((respond_iff (by decide) (by decide) fun _ hanswers => hanswers.safe_iff).mp h).2

end OsLab.Web
