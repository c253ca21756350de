import OsLab.Lfs.Main
import OsLab.Lib.Path

/-!
# Generated commands

`make_command_list` writes its commands into one text and the main loop reads them back. It keeps
track of the files and directories as if each command succeeded.

* **`Made`**, **`Command.text`** -- paths of random names, and a command as it is written.
* **`readCommand_text`** -- the loop reads a command as it was written: no separator is in a field.
* **`Assumes`**, **`assumed`** -- the file system that the generator assumes, as a transition
  system.
* **`makeCommand_ok`**, **`Writes`** -- what a round of the generator does, and what its text is
  after any number of them.
* **`generated_understood`** -- all that is written is understood, and makes sense if what comes
  before it succeeds.
-/

namespace OsLab.Lfs

open OsLab.Disks (intOfStr digits isSpace)

/-! ## Numbers -/

section Numbers

/-- The digits of a number are read as the number. -/
theorem digits_toDigits (n : Nat) : digits (Nat.toDigits 10 n) = some n := by
  have hall : (Nat.toDigits 10 n).all Char.isDigit = true :=
    List.all_eq_true.mpr fun c hc => Nat.isDigit_of_mem_toDigits (by decide) (by decide) hc
  unfold digits
  rw [if_pos ⟨Nat.toDigits_ne_nil, hall⟩]
  exact congrArg some Nat.ofDigitChars_ten_toDigits

theorem strOfInt_natCast (n : Nat) : strOfInt n = Nat.toDigits 10 n := by
  show (toString n).toList = _
  rw [Nat.toString_eq_ofList_toDigits, String.toList_ofList]

/-- No digit is cut off as a space or taken for a sign. -/
theorem isDigit_plain {c : Char} (h : c.isDigit = true) :
    isSpace c = false ∧ c ≠ '-' ∧ c ≠ '+' := by
  refine ⟨?_, ?_, ?_⟩
  · refine decide_eq_false fun hmem => ?_
    simp only [List.mem_cons, List.not_mem_nil, or_false] at hmem
    rcases hmem with rfl | rfl | rfl | rfl | rfl | rfl <;> cases h
  · rintro rfl
    cases h
  · rintro rfl
    cases h

theorem dropWhile_of_digits {s : Str} (h : ∀ c ∈ s, c.isDigit = true) :
    s.dropWhile isSpace = s := by
  cases s with
  | nil => rfl
  | cons c s =>
    exact List.dropWhile_cons_of_neg (by simp [(isDigit_plain (h c (List.mem_cons_self ..))).1])

/-- `int(str(n))` is `n`. -/
theorem intOfStr_strOfInt (n : Nat) : intOfStr (strOfInt n) = .ok n := by
  have hdigit : ∀ c ∈ Nat.toDigits 10 n, c.isDigit = true :=
    fun c hc => Nat.isDigit_of_mem_toDigits (by decide) (by decide) hc
  unfold intOfStr
  rw [strOfInt_natCast, dropWhile_of_digits hdigit,
    dropWhile_of_digits (fun c hc => hdigit c (List.mem_reverse.mp hc)), List.reverse_reverse]
  have hvalue := digits_toDigits n
  dsimp only
  split
  · rename_i k heq
    split at heq
    · rename_i s hs
      exact absurd rfl (isDigit_plain (hdigit '-' (hs ▸ List.mem_cons_self ..))).2.1
    · rename_i s hs
      exact absurd rfl (isDigit_plain (hdigit '+' (hs ▸ List.mem_cons_self ..))).2.2
    · rw [hvalue] at heq
      exact congrArg Except.ok (Option.some.inj heq).symm
  · rename_i heq
    split at heq
    · rename_i s hs
      exact absurd rfl (isDigit_plain (hdigit '-' (hs ▸ List.mem_cons_self ..))).2.1
    · rename_i s hs
      exact absurd rfl (isDigit_plain (hdigit '+' (hs ▸ List.mem_cons_self ..))).2.2
    · rw [hvalue] at heq
      cases heq

end Numbers

/-! ## Paths -/

/-- Two letters and a digit. -/
def IsName (name : Str) : Prop :=
  ∃ a b d, name = [a, b, d] ∧ a.isLower = true ∧ b.isLower = true ∧ d.isDigit = true

/-- `path` is a random name in `parentDir`. -/
def Below (parentDir path : Str) : Prop :=
  ∃ name, IsName name ∧ path = (if parentDir = ['/'] then [] else parentDir) ++ '/' :: name

/-- A path of random names. -/
def Made (path : Str) : Prop :=
  ∃ ns, ns ≠ [] ∧ (∀ n ∈ ns, IsName n) ∧ path = Path.render '/' ns

section Paths

variable {path parentDir name : Str}

theorem IsName.alphanum (h : IsName name) : ∀ c ∈ name, c.isAlphanum = true := by
  obtain ⟨a, b, d, rfl, ha, hb, hd⟩ := h
  have hlower : ∀ c : Char, c.isLower = true → c.isAlphanum = true := by
    intro c hc
    show ((c.isUpper || c.isLower) || c.isDigit) = true
    rw [hc, Bool.or_true, Bool.true_or]
  have hdigit : d.isAlphanum = true := by
    show ((d.isUpper || d.isLower) || d.isDigit) = true
    rw [hd, Bool.or_true]
  simp [hlower a ha, hlower b hb, hdigit]

/-- A name holds letters and digits only. -/
theorem IsName.not_mem (h : IsName name) {c : Char} (hc : c.isAlphanum = false) : c ∉ name := by
  intro hmem
  rw [h.alphanum c hmem] at hc
  cases hc

/-- A random name in a directory of random names. -/
theorem Made.below (h : parentDir = ['/'] ∨ Made parentDir) (hbelow : Below parentDir path) :
    Made path := by
  obtain ⟨name, hname, rfl⟩ := hbelow
  have hone : Path.render '/' [name] = '/' :: name := by simp
  rcases h with rfl | ⟨ns, hne, hns, rfl⟩
  · exact ⟨[name], by simp, by simpa using hname, hone.symm⟩
  · refine ⟨ns ++ [name], by simp, ?_, ?_⟩
    · intro n hn
      rcases List.mem_append.mp hn with hn | hn
      · exact hns n hn
      · exact List.mem_singleton.mp hn ▸ hname
    · have hroot : Path.render '/' ns ≠ ['/'] := by
        cases ns with
        | nil => simp
        | cons n ns =>
          obtain ⟨a, b, d, rfl, _⟩ := hns n (List.mem_cons_self ..)
          simp
      rw [if_neg hroot, Path.render_append, hone]

/-- A separator of commands or of arguments is in no path. -/
theorem Made.not_mem (h : Made path) {c : Char} (hc : c.isAlphanum = false) (hslash : c ≠ '/') :
    c ∉ path := by
  obtain ⟨ns, _, hns, rfl⟩ := h
  unfold Path.render
  rw [List.mem_flatMap]
  rintro ⟨n, hn, hmem⟩
  rcases List.mem_cons.mp hmem with rfl | hmem
  · exact hslash rfl
  · exact (hns n hn).not_mem hc hmem

/-- A path of random names is plain. -/
theorem Made.plain (h : Made path) : Plain path := by
  obtain ⟨ns, hne, hns, rfl⟩ := h
  have hsplit : split (Path.render '/' ns) '/' = [] :: ns :=
    Path.splitOn_render fun n hn => (hns n hn).not_mem (by decide)
  have hnames : names (Path.render '/' ns) = ns := by
    unfold names
    rw [hsplit]
    rfl
  refine ⟨?_, hnames.symm ▸ hne, ?_⟩
  · unfold startsAtRoot
    rw [hsplit]
    rfl
  · rw [hnames]
    intro n hn
    obtain ⟨a, b, d, rfl, _⟩ := hns n hn
    exact ⟨by simp [dotName], by simp [dotDotName], by simp [marker]⟩

end Paths

/-! ## The text of a command -/

def Command.fields : Command → List Str
  | .createFile path => [['c'], path]
  | .createDir path => [['d'], path]
  | .delete path => [['r'], path]
  | .link srcpath dstpath => [['l'], srcpath, dstpath]
  | .write path offset numBlks => [['w'], path, strOfInt offset, strOfInt numBlks]
  | .sync => [['s']]
  | .notUnderstood command => [command]

def Command.text (c : Command) : Str := [','].intercalate c.fields

/-- A command that `make_command_list` may write. -/
def Command.Made : Command → Prop
  | .createFile path => Lfs.Made path
  | .createDir path => Lfs.Made path
  | .delete path => Lfs.Made path
  | .link srcpath dstpath => Lfs.Made srcpath ∧ Lfs.Made dstpath
  | .write path offset numBlks =>
    Lfs.Made path ∧ (∃ k : Nat, offset = k) ∧ ∃ k : Nat, numBlks = k
  | .sync => True
  | .notUnderstood _ => False

section Text

variable {c : Command}

theorem strOfInt_not_mem (n : Nat) {c : Char} (hc : c.isDigit = false) : c ∉ strOfInt n := by
  intro hmem
  rw [strOfInt_natCast] at hmem
  rw [Nat.isDigit_of_mem_toDigits (by decide) (by decide) hmem] at hc
  cases hc

/-- No separator is in a field. -/
theorem Command.Made.not_mem (h : c.Made) {sep : Char} (hsep : sep = ',' ∨ sep = ':') :
    ∀ f ∈ c.fields, sep ∉ f := by
  have hpath : ∀ {path : Str}, Lfs.Made path → sep ∉ path := by
    intro path hpath
    rcases hsep with rfl | rfl
    · exact hpath.not_mem (by decide) (by decide)
    · exact hpath.not_mem (by decide) (by decide)
  have hnum : ∀ n : Nat, sep ∉ strOfInt n := by
    intro n
    rcases hsep with rfl | rfl
    · exact strOfInt_not_mem n (by decide)
    · exact strOfInt_not_mem n (by decide)
  have hletter : ∀ x : Char, x.isAlpha = true → sep ∉ [x] := by
    intro x hx hmem
    obtain rfl := List.mem_singleton.mp hmem
    rcases hsep with rfl | rfl
    · cases hx
    · cases hx
  cases c with
  | createFile path => simp [Command.fields, hpath h, hletter]
  | createDir path => simp [Command.fields, hpath h, hletter]
  | delete path => simp [Command.fields, hpath h, hletter]
  | link srcpath dstpath => simp [Command.fields, hpath h.1, hpath h.2, hletter]
  | write path offset numBlks =>
    obtain ⟨hp, ⟨k, rfl⟩, l, rfl⟩ := h
    simp [Command.fields, hpath hp, hnum, hletter]
  | sync => simp [Command.fields, hletter]
  | notUnderstood command => exact h.elim

theorem Command.fields_ne_nil (c : Command) : c.fields ≠ [] := by
  cases c <;> exact List.cons_ne_nil _ _

theorem Command.text_ne_nil (h : c.Made) : c.text ≠ [] := by
  cases c with
  | notUnderstood command => exact h.elim
  | sync => simp [Command.text, Command.fields]
  | _ => simp [Command.text, Command.fields]

/-- The loop reads a command as it was written. -/
theorem readCommand_text (h : c.Made) : readCommand c.text = .ok c := by
  have hsplit : split c.text ',' = c.fields :=
    List.splitOn_intercalate ',' (h.not_mem (.inl rfl)) c.fields_ne_nil
  unfold readCommand
  rw [hsplit]
  cases c with
  | createFile path => rfl
  | createDir path => rfl
  | delete path => rfl
  | link srcpath dstpath => rfl
  | write path offset numBlks =>
    obtain ⟨_, ⟨k, rfl⟩, l, rfl⟩ := h
    have hk := intOfStr_strOfInt k
    have hl := intOfStr_strOfInt l
    have hfields : (Command.write path k l).fields = [['w'], path, strOfInt k, strOfInt l] := rfl
    rw [hfields]
    generalize strOfInt k = offset at hk ⊢
    generalize strOfInt l = numBlks at hl ⊢
    show (intOfStr offset >>= fun i => intOfStr numBlks >>= fun j =>
      pure (Command.write path i j)) = _
    rw [hk, hl]
    rfl
  | sync => rfl
  | notUnderstood command => exact h.elim

theorem Command.Made.plain (h : c.Made) : c.Plain := by
  cases c with
  | createFile path => exact Lfs.Made.plain h
  | createDir path => exact Lfs.Made.plain h
  | delete path => exact Lfs.Made.plain h
  | link srcpath dstpath => exact h.2.plain
  | write path offset numBlks => trivial
  | sync => trivial
  | notUnderstood command => exact h.elim

end Text

/-! ## The tree that the generator has in mind -/

/-- What a command does to the files and directories if it succeeds. The files it names are there,
and a new name is one in a directory that is there. -/
inductive Assumes : Multiset Str × Multiset Str → Command → Multiset Str × Multiset Str → Prop where
  | createFile {files dirs : Multiset Str} {parentDir path : Str} (dir : parentDir ∈ dirs)
      (new : Below parentDir path) : Assumes (files, dirs) (.createFile path) (path ::ₘ files, dirs)
  | createDir {files dirs : Multiset Str} {parentDir path : Str} (dir : parentDir ∈ dirs)
      (new : Below parentDir path) : Assumes (files, dirs) (.createDir path) (files, path ::ₘ dirs)
  | delete {files dirs : Multiset Str} {path : Str} :
      Assumes (path ::ₘ files, dirs) (.delete path) (files, dirs)
  | link {files dirs : Multiset Str} {srcpath parentDir dstpath : Str} (file : srcpath ∈ files)
      (dir : parentDir ∈ dirs) (new : Below parentDir dstpath) :
      Assumes (files, dirs) (.link srcpath dstpath) (dstpath ::ₘ files, dirs)
  | write {files dirs : Multiset Str} {path : Str} {offset numBlks : Nat} (file : path ∈ files)
      (offset_lt : offset < 8) (numBlks_lt : numBlks < 8) :
      Assumes (files, dirs) (.write path offset numBlks) (files, dirs)
  | sync {files dirs : Multiset Str} : Assumes (files, dirs) .sync (files, dirs)

/-- The root and no file, to begin with. -/
def assumed : Lts (Multiset Str × Multiset Str) Command := ⟨(· = (0, {['/']})), Assumes⟩

/-- Everything has a path of random names. -/
structure AllMade (tree : Multiset Str × Multiset Str) : Prop where
  files : ∀ path ∈ tree.1, Made path
  dirs : ∀ path ∈ tree.2, path = ['/'] ∨ Made path

section Assumed

variable {tree tree' : Multiset Str × Multiset Str} {c : Command} {cmds : List Command}

/-- A command uses paths that are made, and enters one. -/
theorem AllMade.step (h : AllMade tree) (hstep : Assumes tree c tree') : AllMade tree' ∧ c.Made := by
  cases hstep with
  | createFile hdir hnew =>
    have hpath := Made.below (h.dirs _ hdir) hnew
    exact ⟨⟨by simpa using ⟨hpath, h.files⟩, h.dirs⟩, hpath⟩
  | createDir hdir hnew =>
    have hpath := Made.below (h.dirs _ hdir) hnew
    refine ⟨⟨h.files, ?_⟩, hpath⟩
    intro path hmem
    rcases Multiset.mem_cons.mp hmem with rfl | hmem
    · exact .inr hpath
    · exact h.dirs path hmem
  | delete =>
    exact ⟨⟨fun path hmem => h.files path (Multiset.mem_cons_of_mem hmem), h.dirs⟩,
      h.files _ (Multiset.mem_cons_self _ _)⟩
  | link hfile hdir hnew =>
    have hpath := Made.below (h.dirs _ hdir) hnew
    exact ⟨⟨by simpa using ⟨hpath, h.files⟩, h.dirs⟩, h.files _ hfile, hpath⟩
  | @write _ _ _ offset numBlks hfile _ _ =>
    exact ⟨h, h.files _ hfile, ⟨offset, rfl⟩, numBlks, rfl⟩
  | sync => exact ⟨h, trivial⟩

/-- So everything that a run of assumptions leads to has a path that is made. -/
theorem AllMade.run (hrun : assumed.Run (0, {['/']}) cmds tree) :
    AllMade tree ∧ ∀ c ∈ cmds, c.Made := by
  induction hrun with
  | nil =>
    refine ⟨⟨fun path hmem => absurd hmem (Multiset.notMem_zero _), fun path hmem => ?_⟩, by simp⟩
    exact .inl (Multiset.mem_singleton.mp hmem)
  | snoc _ last ih =>
    obtain ⟨hmade, hc⟩ := ih.1.step last
    refine ⟨hmade, fun c hmem => ?_⟩
    rcases List.mem_append.mp hmem with hmem | hmem
    · exact ih.2 c hmem
    · exact List.mem_singleton.mp hmem ▸ hc

end Assumed

/-! ## Inside the generator -/

section Generator

variable {α β : Type} {draws : Nat → Rat} {percents : Cmd → Rat × Rat} {st st' : Generator}

/-- A computation of the generator that ends has ended in its parts. -/
theorem genM_bind_ok {m : GenM α} {f : α → GenM β} {b : β} :
    (m >>= f) st = .ok (b, st') ↔ ∃ a st₁, m st = .ok (a, st₁) ∧ f a st₁ = .ok (b, st') := by
  show (m st >>= fun p => f p.1 p.2) = _ ↔ _
  rw [bind_eq_ok]
  constructor
  · rintro ⟨⟨a, st₁⟩, hm, hf⟩
    exact ⟨a, st₁, hm, hf⟩
  · rintro ⟨a, st₁, hm, hf⟩
    exact ⟨(a, st₁), hm, hf⟩

theorem item_mem {xs : List α} {i : Int} {x : α} (h : item xs i = .ok x) : x ∈ xs := by
  unfold item at h
  split at h
  · rename_i y hy
    obtain ⟨k, _, hget⟩ := Option.bind_eq_some_iff.mp hy
    obtain rfl := Except.ok.inj h
    exact List.mem_of_getElem? hget
  · cases h

theorem liftItem_ok {xs : List α} {i : Int} {x : α}
    (h : (liftM (item xs i) : GenM α) st = .ok (x, st')) : item xs i = .ok x ∧ st' = st := by
  have hlift : (item xs i >>= fun y => .ok (y, st)) = .ok (x, st') := h
  obtain ⟨y, hy, heq⟩ := bind_eq_ok.mp hlift
  obtain ⟨rfl, rfl⟩ := Prod.mk.inj (Except.ok.inj heq)
  exact ⟨hy, rfl⟩

/-- `int(random.random() * n)` is below `n`, for a draw below 1. -/
theorem randomInt_ok (hdraws : ∀ n, IsDraw (draws n)) {n : Nat} {i : Int}
    (h : randomInt draws n st = .ok (i, st')) :
    (0 < n → ∃ k : Nat, k < n ∧ i = k) ∧ st' = { st with drawn := st.drawn + 1 } := by
  obtain ⟨x, st₁, hx, heq⟩ := genM_bind_ok.mp h
  obtain ⟨rfl, rfl⟩ := Prod.mk.inj (Except.ok.inj hx)
  obtain ⟨rfl, rfl⟩ := Prod.mk.inj (Except.ok.inj heq)
  refine ⟨fun hn => ?_, rfl⟩
  obtain ⟨hnonneg, hlt⟩ := intOfRat_draw_mul (hdraws st.drawn) hn
  exact ⟨(intOfRat (draws st.drawn * n)).toNat, by omega, by omega⟩

/-- What is picked is in the list, if there is anything in it. -/
theorem pickRandom_ok {aList : List Str} {x : Str} (hdraws : ∀ n, IsDraw (draws n))
    (h : pickRandom draws aList st = .ok (x, st')) :
    (x ≠ [] → x ∈ aList) ∧ ∃ k, st' = { st with drawn := k } := by
  unfold pickRandom at h
  split at h
  · obtain ⟨rfl, rfl⟩ := Prod.mk.inj (Except.ok.inj h)
    exact ⟨fun hne => absurd rfl hne, st.drawn, rfl⟩
  · obtain ⟨index, st₁, hindex, hpick⟩ := genM_bind_ok.mp h
    obtain ⟨_, rfl⟩ := randomInt_ok hdraws hindex
    obtain ⟨hitem, rfl⟩ := liftItem_ok hpick
    exact ⟨fun _ => item_mem hitem, _, rfl⟩

theorem letterAt_isLower {k : Nat} (hk : k < 26) : (letterAt k).isLower = true := by
  have hall : ∀ k < 26, (letterAt (k : Nat)).isLower = true := by decide
  exact hall k hk

/-- A random name is made in the directory that it is asked for. -/
theorem makeRandomFileName_ok {parentDir path : Str} (hdraws : ∀ n, IsDraw (draws n))
    (h : makeRandomFileName draws parentDir st = .ok (path, st')) :
    Below parentDir path ∧ ∃ k, st' = { st with drawn := k } := by
  obtain ⟨n₁, st₁, h₁, h⟩ := genM_bind_ok.mp h
  obtain ⟨n₂, st₂, h₂, h⟩ := genM_bind_ok.mp h
  obtain ⟨n₃, st₃, h₃, h⟩ := genM_bind_ok.mp h
  obtain ⟨hn₁, rfl⟩ := randomInt_ok hdraws h₁
  obtain ⟨hn₂, rfl⟩ := randomInt_ok hdraws h₂
  obtain ⟨hn₃, rfl⟩ := randomInt_ok hdraws h₃
  obtain ⟨k₁, hk₁, rfl⟩ := hn₁ (by decide)
  obtain ⟨k₂, hk₂, rfl⟩ := hn₂ (by decide)
  obtain ⟨k₃, hk₃, rfl⟩ := hn₃ (by decide)
  obtain ⟨rfl, rfl⟩ := Prod.mk.inj (Except.ok.inj h)
  refine ⟨⟨[letterAt k₁, letterAt k₂, k₃.digitChar], ⟨_, _, _, rfl, letterAt_isLower hk₁,
    letterAt_isLower hk₂, ?_⟩, ?_⟩, _, rfl⟩
  · have hmem : k₃.digitChar ∈ Nat.toDigits 10 k₃ := by
      rw [Nat.toDigits_of_lt_base hk₃]
      exact List.mem_singleton_self _
    exact Nat.isDigit_of_mem_toDigits (by decide) (by decide) hmem
  · rw [strOfInt_natCast, Nat.toDigits_of_lt_base hk₃]
    by_cases hroot : parentDir = ['/']
    · rw [if_pos hroot, if_pos hroot]
      rfl
    · rw [if_neg hroot, if_neg hroot]

/-- The files and directories that the generator keeps. -/
def Generator.tree (st : Generator) : Multiset Str × Multiset Str :=
  (st.existingFiles, st.existingDirs)

/-- A command and what it assumes. -/
structure Makes (st st' : Generator) (command : Str) (c : Command) : Prop where
  text : command = c.text
  tree : Assumes st.tree c st'.tree
  same : st'.commandList = st.commandList ∧ st'.numCommands = st.numCommands

/-- The choice of a directory and a name in it, as three branches make it. -/
theorem newName_ok {pdir nfile : Str} {st₁ : Generator} (hdraws : ∀ n, IsDraw (draws n))
    (hpdir : pickRandom draws st.existingDirs st = .ok (pdir, st₁)) (hne : pdir ≠ [])
    (hname : makeRandomFileName draws pdir st₁ = .ok (nfile, st')) :
    pdir ∈ (st.existingDirs : Multiset Str) ∧ Below pdir nfile ∧
      ∃ k, st' = { st with drawn := k } := by
  obtain ⟨hmem, k, rfl⟩ := pickRandom_ok hdraws hpdir
  obtain ⟨hbelow, l, rfl⟩ := makeRandomFileName_ok hdraws hname
  exact ⟨Multiset.mem_coe.mpr (hmem hne), hbelow, l, rfl⟩

theorem coe_append_singleton (xs : List Str) (x : Str) :
    ((xs ++ [x] : List Str) : Multiset Str) = x ::ₘ (xs : Multiset Str) := by
  rw [Multiset.cons_coe, Multiset.coe_eq_coe]
  exact List.perm_append_singleton x xs

/-- A branch that goes on without a command has drawn something at most. -/
theorem makeCommand_ok {cmd : Cmd} {command : Option Str} (hdraws : ∀ n, IsDraw (draws n))
    (h : makeCommand draws cmd st = .ok (command, st')) :
    (command = none ∧ ∃ k, st' = { st with drawn := k }) ∨
      ∃ text c, command = some text ∧ Makes st st' text c := by
  cases cmd with
  | c =>
    -- A new file below a directory made before; without a directory the round makes nothing.
    obtain ⟨_, _, hget, h⟩ := genM_bind_ok.mp h
    obtain ⟨rfl, rfl⟩ := Prod.mk.inj (Except.ok.inj hget)
    obtain ⟨pdir, st₁, hpdir, h⟩ := genM_bind_ok.mp h
    split at h
    · obtain ⟨_, k, rfl⟩ := pickRandom_ok hdraws hpdir
      obtain ⟨rfl, rfl⟩ := Prod.mk.inj (Except.ok.inj h)
      exact .inl ⟨rfl, k, rfl⟩
    · rename_i hne
      obtain ⟨nfile, st₂, hname, h⟩ := genM_bind_ok.mp h
      obtain ⟨hdir, hbelow, k, rfl⟩ := newName_ok hdraws hpdir hne hname
      obtain ⟨rfl, rfl⟩ := Prod.mk.inj (Except.ok.inj h)
      refine .inr ⟨_, .createFile nfile, rfl, ?_, ?_, rfl, rfl⟩
      · simp [Command.text, Command.fields]
      · show Assumes _ _ (((st.existingFiles ++ [nfile] : List Str) : Multiset Str), _)
        rw [coe_append_singleton]
        exact .createFile hdir hbelow
  | w =>
    obtain ⟨_, _, hget, h⟩ := genM_bind_ok.mp h
    obtain ⟨rfl, rfl⟩ := Prod.mk.inj (Except.ok.inj hget)
    -- A write to a file made before, at drawn offset and length.
    obtain ⟨pfile, st₁, hpfile, h⟩ := genM_bind_ok.mp h
    obtain ⟨hmem, k, rfl⟩ := pickRandom_ok hdraws hpfile
    split at h
    · obtain ⟨rfl, rfl⟩ := Prod.mk.inj (Except.ok.inj h)
      exact .inl ⟨rfl, k, rfl⟩
    · rename_i hne
      obtain ⟨woff, _, hwoff, h⟩ := genM_bind_ok.mp h
      obtain ⟨wlen, _, hwlen, h⟩ := genM_bind_ok.mp h
      obtain ⟨hoff, rfl⟩ := randomInt_ok hdraws hwoff
      obtain ⟨hlen, rfl⟩ := randomInt_ok hdraws hwlen
      obtain ⟨i, hi, rfl⟩ := hoff (by decide)
      obtain ⟨j, hj, rfl⟩ := hlen (by decide)
      obtain ⟨rfl, rfl⟩ := Prod.mk.inj (Except.ok.inj h)
      refine .inr ⟨_, .write pfile i j, rfl, ?_, .write (Multiset.mem_coe.mpr (hmem hne)) hi hj, rfl,
        rfl⟩
      simp [Command.text, Command.fields]
  | d =>
    obtain ⟨_, _, hget, h⟩ := genM_bind_ok.mp h
    obtain ⟨rfl, rfl⟩ := Prod.mk.inj (Except.ok.inj hget)
    obtain ⟨pdir, st₁, hpdir, h⟩ := genM_bind_ok.mp h
    split at h
    · obtain ⟨_, k, rfl⟩ := pickRandom_ok hdraws hpdir
      obtain ⟨rfl, rfl⟩ := Prod.mk.inj (Except.ok.inj h)
      exact .inl ⟨rfl, k, rfl⟩
    · rename_i hne
      obtain ⟨ndir, st₂, hname, h⟩ := genM_bind_ok.mp h
      obtain ⟨hdir, hbelow, k, rfl⟩ := newName_ok hdraws hpdir hne hname
      obtain ⟨rfl, rfl⟩ := Prod.mk.inj (Except.ok.inj h)
      refine .inr ⟨_, .createDir ndir, rfl, ?_, ?_, rfl, rfl⟩
      · simp [Command.text, Command.fields]
      · show Assumes _ _ (_, ((st.existingDirs ++ [ndir] : List Str) : Multiset Str))
        rw [coe_append_singleton]
        exact .createDir hdir hbelow
  | r =>
    obtain ⟨_, _, hget, h⟩ := genM_bind_ok.mp h
    obtain ⟨rfl, rfl⟩ := Prod.mk.inj (Except.ok.inj hget)
    split at h
    · obtain ⟨rfl, rfl⟩ := Prod.mk.inj (Except.ok.inj h)
      exact .inl ⟨rfl, _, rfl⟩
    · rename_i hne
      -- The file deleted leaves the list of existing files at the drawn index.
      obtain ⟨index, _, hindex, h⟩ := genM_bind_ok.mp h
      obtain ⟨hbelow, rfl⟩ := randomInt_ok hdraws hindex
      obtain ⟨k, hk, rfl⟩ := hbelow (by omega)
      obtain ⟨file, _, hpick, h⟩ := genM_bind_ok.mp h
      obtain ⟨hfile, rfl⟩ := liftItem_ok hpick
      obtain ⟨rfl, rfl⟩ := Prod.mk.inj (Except.ok.inj h)
      obtain ⟨_, hget⟩ := List.getElem?_eq_some_iff.mp (item_natCast_eq_ok.mp hfile)
      refine .inr ⟨_, .delete file, rfl, ?_, ?_, rfl, rfl⟩
      · simp [Command.text, Command.fields]
      · -- the files are the one taken and the others
        have hrest : (st.existingFiles : Multiset Str) =
            file ::ₘ ((st.existingFiles.eraseIdx k : List Str) : Multiset Str) := by
          rw [Multiset.cons_coe, Multiset.coe_eq_coe, ← hget]
          exact (List.getElem_cons_eraseIdx_perm hk).symm
        show Assumes (_, _) _ _
        rw [hrest]
        exact .delete
  | l =>
    obtain ⟨_, _, hget, h⟩ := genM_bind_ok.mp h
    obtain ⟨rfl, rfl⟩ := Prod.mk.inj (Except.ok.inj hget)
    -- The link draws its file before it looks whether there is a directory.
    obtain ⟨index, _, hindex, h⟩ := genM_bind_ok.mp h
    obtain ⟨_, rfl⟩ := randomInt_ok hdraws hindex
    obtain ⟨_, _, hget, h⟩ := genM_bind_ok.mp h
    obtain ⟨rfl, rfl⟩ := Prod.mk.inj (Except.ok.inj hget)
    obtain ⟨pdir, st₁, hpdir, h⟩ := genM_bind_ok.mp h
    split at h
    · obtain ⟨_, k, rfl⟩ := pickRandom_ok hdraws hpdir
      obtain ⟨rfl, rfl⟩ := Prod.mk.inj (Except.ok.inj h)
      exact .inl ⟨rfl, k, rfl⟩
    · rename_i hne
      obtain ⟨nfile, st₂, hname, h⟩ := genM_bind_ok.mp h
      obtain ⟨hdir, hbelow, k, rfl⟩ := newName_ok hdraws hpdir hne hname
      obtain ⟨file, _, hpick, h⟩ := genM_bind_ok.mp h
      obtain ⟨hfile, rfl⟩ := liftItem_ok hpick
      obtain ⟨rfl, rfl⟩ := Prod.mk.inj (Except.ok.inj h)
      refine .inr ⟨_, .link file nfile, rfl, ?_, ?_, rfl, rfl⟩
      · simp [Command.text, Command.fields]
      · show Assumes _ _ (((st.existingFiles ++ [nfile] : List Str) : Multiset Str), _)
        rw [coe_append_singleton]
        exact .link (Multiset.mem_coe.mpr (item_mem hfile)) hdir hbelow
  | s =>
    obtain ⟨rfl, rfl⟩ := Prod.mk.inj (Except.ok.inj h)
    exact .inr ⟨_, .sync, rfl, rfl, .sync, rfl, rfl⟩

/-- The text is that of some commands, which lead to the files and directories that are kept. -/
structure Writes (numCommands : Int) (st : Generator) (cmds : List Command) : Prop where
  text : st.commandList = [':'].intercalate (cmds.map Command.text)
  count : st.numCommands + cmds.length = numCommands
  run : assumed.Run (0, {['/']}) cmds st.tree

theorem Writes.text_eq_nil {numCommands : Int} {cmds : List Command}
    (h : Writes numCommands st cmds) : st.commandList = [] ↔ cmds = [] := by
  have hmade : ∀ t ∈ cmds.map Command.text, t ≠ [] := by
    intro t ht
    obtain ⟨c, hc, rfl⟩ := List.mem_map.mp ht
    exact Command.text_ne_nil ((AllMade.run h.run).2 c hc)
  rw [h.text, Path.intercalate_eq_nil hmade, List.map_eq_nil_iff]

/-- One round adds one command, or nothing. -/
theorem Writes.next {numCommands : Int} {cmds : List Command} (hdraws : ∀ n, IsDraw (draws n))
    (h : Writes numCommands st cmds) (hnext : nextCommand draws percents st = .ok ((), st')) :
    ∃ cmds', Writes numCommands st' cmds' := by
  obtain ⟨chances, st₁, hdraw, hnext⟩ := genM_bind_ok.mp hnext
  obtain ⟨rfl, rfl⟩ := Prod.mk.inj (Except.ok.inj hdraw)
  cases hcmd : chosen percents (draws st.drawn) with
  | none =>
    rw [hcmd] at hnext
    cases hnext
  | some cmd =>
    rw [hcmd] at hnext
    obtain ⟨command, st₂, hmake, hnext⟩ := genM_bind_ok.mp hnext
    rcases makeCommand_ok hdraws hmake with ⟨rfl, k, rfl⟩ | ⟨text, c, rfl, hmakes⟩
    · obtain ⟨_, rfl⟩ := Prod.mk.inj (Except.ok.inj hnext)
      exact ⟨cmds, h.text, h.count, h.run⟩
    · obtain ⟨_, rfl⟩ := Prod.mk.inj (Except.ok.inj hnext)
      refine ⟨cmds ++ [c], ?_, ?_, .snoc h.run hmakes.tree⟩
      · show (if st₂.commandList = [] then text else st₂.commandList ++ ':' :: text) = _
        rw [List.map_append, List.map_singleton, hmakes.same.1, hmakes.text]
        show (if st.commandList = [] then c.text else st.commandList ++ ':' :: c.text) = _
        by_cases hnil : cmds = []
        · rw [if_pos ((h.text_eq_nil).mpr hnil), hnil]
          exact (List.intercalate_singleton ..).symm
        · rw [if_neg fun heq => hnil ((h.text_eq_nil).mp heq), h.text,
            Path.intercalate_concat (by simpa using hnil)]
      · have hcount := h.count
        rw [List.length_append, List.length_singleton]
        show st₂.numCommands - 1 + _ = _
        rw [hmakes.same.2]
        push_cast
        show st.numCommands - 1 + _ = _
        omega

/-- Any number of rounds, by induction on it. -/
theorem Writes.rounds {numCommands : Int} {cmds : List Command} (hdraws : ∀ n, IsDraw (draws n))
    {n : Nat} (h : Writes numCommands st cmds)
    (hrun : Lfs.rounds draws percents n st = .ok ((), st')) :
    ∃ cmds', Writes numCommands st' cmds' := by
  induction n generalizing st cmds with
  | zero =>
    obtain ⟨_, rfl⟩ := Prod.mk.inj (Except.ok.inj hrun)
    exact ⟨cmds, h⟩
  | succ n ih =>
    obtain ⟨_, _, hget, hrun⟩ := genM_bind_ok.mp hrun
    obtain ⟨rfl, rfl⟩ := Prod.mk.inj (Except.ok.inj hget)
    split at hrun
    · obtain ⟨_, st₁, hnext, hrun⟩ := genM_bind_ok.mp hrun
      obtain ⟨cmds', h'⟩ := h.next hdraws hnext
      exact ih h' hrun
    · obtain ⟨_, rfl⟩ := Prod.mk.inj (Except.ok.inj hrun)
      exact ⟨cmds, h⟩

end Generator

/-! ## Reading the generated text -/

section Reading

variable {draws : Nat → Rat} {percents : Cmd → Rat × Rat} {numCommands : Int} {n : Nat}
  {st : Generator} {cmds : List Command}

theorem commandsOf_text (h : ∀ c ∈ cmds, c.Made) :
    commandsOf ([':'].intercalate (cmds.map Command.text)) = cmds.map Command.text := by
  have hcolon : ∀ t ∈ cmds.map Command.text, ':' ∉ t := by
    intro t ht hmem
    obtain ⟨c, hc, rfl⟩ := List.mem_map.mp ht
    rcases Path.mem_intercalate hmem with hcomma | ⟨f, hf, hmem⟩
    · cases hcomma
    · exact (h c hc).not_mem (.inr rfl) f hf hmem
  unfold commandsOf
  cases cmds with
  | nil => rfl
  | cons c cmds =>
    have hne : ∀ t ∈ (c :: cmds).map Command.text, t ≠ [] := by
      intro t ht
      obtain ⟨c', hc', rfl⟩ := List.mem_map.mp ht
      exact Command.text_ne_nil (h c' hc')
    rw [if_neg fun heq => List.cons_ne_nil _ _ ((Path.intercalate_eq_nil hne).mp heq)]
    exact List.splitOn_intercalate ':' hcolon (List.cons_ne_nil _ _)

/-- The text of commands is read back as the commands. -/
theorem mapM_readCommand (h : ∀ c ∈ cmds, c.Made) :
    (cmds.map Command.text).mapM readCommand = .ok cmds := by
  induction cmds with
  | nil => rfl
  | cons c cmds ih =>
    rw [List.forall_mem_cons] at h
    rw [List.map_cons, List.mapM_cons, readCommand_text h.1, ih h.2]
    rfl

/-- **What is generated is understood.** Whatever `make_command_list` draws, the loop understands
all it has written: as many commands as were asked for so far, with plain paths, each of which uses
only what there is if those before it succeed. -/
theorem generated_understood (hdraws : ∀ n, IsDraw (draws n))
    (h : makeCommandList draws percents numCommands n = .ok st) :
    ∃ cmds, (commandsOf st.commandList).mapM readCommand = .ok cmds ∧
      st.numCommands + cmds.length = numCommands ∧
      assumed.Run (0, {['/']}) cmds (st.existingFiles, st.existingDirs) ∧
      ∀ c ∈ cmds, c.Plain := by
  have hrounds : (rounds draws percents n ⟨numCommands, [], [], [['/']], 0⟩ >>= fun p =>
      Except.ok p.2) = .ok st := h
  obtain ⟨⟨_, st'⟩, hrun, heq⟩ := bind_eq_ok.mp hrounds
  obtain rfl := Except.ok.inj heq
  have hstart : Writes numCommands ⟨numCommands, [], [], [['/']], 0⟩ [] :=
    ⟨rfl, by simp, .nil⟩
  obtain ⟨cmds, hwrites⟩ := hstart.rounds hdraws hrun
  have hmade := (AllMade.run hwrites.run).2
  refine ⟨cmds, ?_, hwrites.count, hwrites.run, fun c hc => (hmade c hc).plain⟩
  rw [hwrites.text, commandsOf_text hmade, mapM_readCommand hmade]

theorem generated_understood_some :
    ∃ percents st cmds, processPercentages "c30,w30,d10,r20,l10,s0".toList = .ok percents ∧
      makeCommandList (fun n => (n % 10 : Nat) / 10) percents 3 3 = .ok st ∧
      (commandsOf st.commandList).mapM readCommand = .ok cmds ∧ cmds.length = 3 := by
  have hrun : (processPercentages "c30,w30,d10,r20,l10,s0".toList >>= fun percents =>
      makeCommandList (fun n => (n % 10 : Nat) / 10) percents 3 3).toOption.map (·.numCommands) =
        some 0 := by decide +kernel
  cases hok : processPercentages "c30,w30,d10,r20,l10,s0".toList with
  | error e =>
    rw [hok] at hrun
    cases hrun
  | ok percents =>
    rw [hok] at hrun
    cases hmake : makeCommandList (fun n => (n % 10 : Nat) / 10) percents 3 3 with
    | error e =>
      replace hrun : (makeCommandList (fun n => (n % 10 : Nat) / 10) percents 3 3).toOption.map
        (·.numCommands) = some 0 := hrun
      rw [hmake] at hrun
      cases hrun
    | ok st =>
      replace hrun : (makeCommandList (fun n => (n % 10 : Nat) / 10) percents 3 3).toOption.map
        (·.numCommands) = some 0 := hrun
      rw [hmake] at hrun
      have hzero : st.numCommands = 0 := Option.some.inj hrun
      have hdraws : ∀ n : Nat, IsDraw ((n % 10 : Nat) / 10) := by
        intro n
        have hlt : n % 10 < 10 := Nat.mod_lt n (by decide)
        refine ⟨by positivity, ?_⟩
        rw [div_lt_one (by norm_num)]
        exact_mod_cast hlt
      obtain ⟨cmds, hread, hcount, _⟩ := generated_understood hdraws hmake
      exact ⟨percents, st, cmds, rfl, hmake, hread, by omega⟩

end Reading

end OsLab.Lfs
