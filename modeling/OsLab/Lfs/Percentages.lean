import Mathlib.Data.Set.Lattice
import Mathlib.Order.CompletePartialOrder
import OsLab.Disks.Disk
import OsLab.Lib.Crossings
import OsLab.Random

/-!
# Percentages of the generated commands

`process_percentages` reads an option such as `c30,w30,d10,r20,l10,s0` and gives each command an
interval of the draws; `make_command_list` looks up each draw there. Hundredths are exact.

* **`processPercentages`**, **`makeCommandList`** -- the two functions. A text is never below a
  number in Python 2, so the test for negative entries never finds one.
* **`entries`**, **`table`**, **`processPercentages_ok`** -- the entries of an option, and the table
  that they leave: the last one of each command.
* **`within_iff`**, **`card_covering_table`** -- which commands are over a draw, counted by the
  entries.
* **`Balanced`**, **`CoversDraws`** -- the condition on the entries, and what the intervals are for.
* **`coversDraws_iff`**, **`repeated_letter`** -- the two are the same, and an accepted option that
  is not balanced.
-/

namespace OsLab.Lfs

open OsLab.Disks (intOfStr)
open Crossings

inductive Cmd where
  | c
  | w
  | d
  | r
  | l
  | s
  deriving DecidableEq, Repr

def cmdList : List Cmd := [.c, .w, .d, .r, .l, .s]

theorem mem_cmdList (cmd : Cmd) : cmd ∈ cmdList := by
  cases cmd <;> decide

instance : Fintype Cmd := ⟨⟨cmdList, by decide⟩, mem_cmdList⟩

def Cmd.ofChar : Char → Option Cmd
  | 'c' => some .c
  | 'w' => some .w
  | 'd' => some .d
  | 'r' => some .r
  | 'l' => some .l
  | 's' => some .s
  | _ => none

/-! ## process_percentages -/

/-- `value < 0` for a `str`: Python 2 puts every number before every string. -/
def strLtInt (_value : Str) (_n : Int) : Bool := false

/-- The first loop: the sum of the percentages. -/
def sumPercentages : List Str → Int → Except Abort Int
  | [], csum => return csum
  | [] :: _, _ => throw .indexError
  | (_cmd :: value) :: tmp, csum => do
    if strLtInt value 0 then
      throw .exit
    let n ← intOfStr value
    sumPercentages tmp (csum + n)

/-- The second loop: `p_array[cmd] = (csum, csum + value)`. -/
def placePercentages :
    List Str → Int → (Cmd → Int × Int) → Except Abort (Cmd → Int × Int)
  | [], _, pArray => return pArray
  | [] :: _, _, _ => throw .indexError
  | (letter :: value) :: tmp, csum, pArray =>
    match Cmd.ofChar letter with
    | none => throw .exit
    | some cmd => do
      let n ← intOfStr value
      placePercentages tmp (csum + n) (Function.update pArray cmd (csum, csum + n))

/-- `process_percentages` -/
def processPercentages (percentages : Str) : Except Abort (Cmd → Rat × Rat) := do
  let tmp := split percentages ','
  let csum ← sumPercentages tmp 0
  if csum ≠ 100 then
    throw .exit
  let pArray ← placePercentages tmp 0 fun _ => (0, 0)
  return fun i => ((pArray i).1 / 100, (pArray i).2 / 100)

/-! ## make_command_list -/

/-- What `make_command_list` works on; `drawn` counts the calls of `random.random()`. -/
structure Generator where
  numCommands : Int
  commandList : Str
  existingFiles : List Str
  existingDirs : List Str
  drawn : Nat

abbrev GenM := StateT Generator (Except Abort)

section Generate

variable (draws : Nat → Rat) (percents : Cmd → Rat × Rat)

/-- `random.random()` -/
def random : GenM Rat := fun st => .ok (draws st.drawn, { st with drawn := st.drawn + 1 })

/-- `int(random.random() * n)` -/
def randomInt (n : Nat) : GenM Int := do
  let x ← random draws
  return intOfRat (x * n)

def pickRandom (aList : List Str) : GenM Str := do
  if aList.length = 0 then
    return []
  let index ← randomInt draws aList.length
  item aList index

/-- `chr(ord('a') + n)` -/
def letterAt (n : Int) : Char := Char.ofNat ('a'.toNat + n.toNat)

/-- `str(n)` for a number -/
def strOfInt (n : Int) : Str := (toString n).toList

def makeRandomFileName (parentDir : Str) : GenM Str := do
  let n₁ ← randomInt draws 26
  let n₂ ← randomInt draws 26
  let n₃ ← randomInt draws 10
  let name := '/' :: letterAt n₁ :: letterAt n₂ :: strOfInt n₃
  return if parentDir = ['/'] then name else parentDir ++ name

/-- `chances >= percents[cmd][0] and chances < percents[cmd][1]` -/
def Within (cmd : Cmd) (chances : Rat) : Prop :=
  (percents cmd).1 ≤ chances ∧ chances < (percents cmd).2

instance (cmd : Cmd) (chances : Rat) : Decidable (Within percents cmd chances) :=
  inferInstanceAs (Decidable (_ ∧ _))

/-- The branch that a draw takes; in the last one the program aborts. -/
def chosen (chances : Rat) : Option Cmd :=
  cmdList.find? fun cmd => Within percents cmd chances

/-- The body of a branch: the command, or `none` for `continue`. -/
def makeCommand : Cmd → GenM (Option Str)
  | .c => do
    let pdir ← pickRandom draws (← get).existingDirs
    if pdir = [] then
      return none
    let nfile ← makeRandomFileName draws pdir
    modify fun st => { st with existingFiles := st.existingFiles ++ [nfile] }
    return some ("c,".toList ++ nfile)
  | .w => do
    let pfile ← pickRandom draws (← get).existingFiles
    if pfile = [] then
      return none
    let woff ← randomInt draws 8
    let wlen ← randomInt draws 8
    return some ("w,".toList ++ pfile ++ ',' :: strOfInt woff ++ ',' :: strOfInt wlen)
  | .d => do
    let pdir ← pickRandom draws (← get).existingDirs
    if pdir = [] then
      return none
    let ndir ← makeRandomFileName draws pdir
    modify fun st => { st with existingDirs := st.existingDirs ++ [ndir] }
    return some ("d,".toList ++ ndir)
  | .r => do
    let existingFiles := (← get).existingFiles
    if existingFiles.length = 0 then
      return none
    let index ← randomInt draws existingFiles.length
    let file ← item existingFiles index
    modify fun st => { st with existingFiles := st.existingFiles.eraseIdx index.toNat }
    return some ("r,".toList ++ file)
  | .l => do
    let existingFiles := (← get).existingFiles
    let index ← randomInt draws existingFiles.length
    let pdir ← pickRandom draws (← get).existingDirs
    if pdir = [] then
      return none
    let nfile ← makeRandomFileName draws pdir
    -- without a file there is no `existing_files[index]`
    let file ← item existingFiles index
    modify fun st => { st with existingFiles := st.existingFiles ++ [nfile] }
    return some ("l,".toList ++ file ++ ',' :: nfile)
  | .s => return some ['s']

/-- One round of the loop. -/
def nextCommand : GenM Unit := do
  let chances ← random draws
  match chosen percents chances with
  | none => throw .exit
  | some cmd =>
    match ← makeCommand draws cmd with
    | none => return
    | some command =>
      modify fun st => { st with
        numCommands := st.numCommands - 1
        commandList :=
          if st.commandList = [] then command else st.commandList ++ ':' :: command }

/-- At most so many rounds of `while num_commands > 0`. -/
def rounds : Nat → GenM Unit
  | 0 => return
  | n + 1 => do
    if 0 < (← get).numCommands then
      nextCommand draws percents
      rounds n

/-- `make_command_list`, followed for a number of rounds. -/
def makeCommandList (numCommands : Int) (n : Nat) : Except Abort Generator := do
  let ((), st) ← rounds draws percents n ⟨numCommands, [], [], [['/']], 0⟩
  return st

end Generate

/-! ## What is accepted -/

/-- The command and the number of an entry. -/
def entry : Str → Option (Cmd × Int)
  | [] => none
  | letter :: value =>
    match Cmd.ofChar letter, intOfStr value with
    | some cmd, .ok n => some (cmd, n)
    | _, _ => none

def entries (percentages : Str) : List (Cmd × Int) := (split percentages ',').filterMap entry

/-- An accepted option has a letter and a number in each entry. -/
theorem sumPercentages_cons {p : Str} {tmp : List Str} {csum total : Int}
    (hsum : sumPercentages (p :: tmp) csum = .ok total) :
    ∃ letter value n, p = letter :: value ∧ intOfStr value = .ok n ∧
      sumPercentages tmp (csum + n) = .ok total := by
  cases p with
  | nil => cases hsum
  | cons letter value =>
    have hstep : (intOfStr value >>= fun n => sumPercentages tmp (csum + n)) = .ok total := hsum
    obtain ⟨n, hn, hrest⟩ := bind_eq_ok.mp hstep
    exact ⟨letter, value, n, rfl, hn, hrest⟩

/-- The second loop gives the entry the next interval. -/
theorem placePercentages_cons {letter : Char} {value : Str} {tmp : List Str} {csum n : Int}
    {pArray pArray' : Cmd → Int × Int} (hn : intOfStr value = .ok n)
    (hplace : placePercentages ((letter :: value) :: tmp) csum pArray = .ok pArray') :
    ∃ cmd, entry (letter :: value) = some (cmd, n) ∧
      placePercentages tmp (csum + n) (Function.update pArray cmd (csum, csum + n)) =
        .ok pArray' := by
  unfold placePercentages at hplace
  cases hcmd : Cmd.ofChar letter with
  | none =>
    rw [hcmd] at hplace
    cases hplace
  | some cmd =>
    have hentry : entry (letter :: value) = some (cmd, n) := by
      simp only [entry, hcmd, hn]
    rw [hcmd, hn] at hplace
    exact ⟨cmd, hentry, hplace⟩

/-- Both loops together: the sum of the entries, and the last entry of each command. -/
theorem loops_ok {tmp : List Str} {csum total : Int} {pArray pArray' : Cmd → Int × Int}
    (hsum : sumPercentages tmp csum = .ok total)
    (hplace : placePercentages tmp csum pArray = .ok pArray') :
    total = csum + ((tmp.filterMap entry).map Prod.snd).sum ∧
      pArray' = lastSteps csum (tmp.filterMap entry) pArray := by
  induction tmp generalizing csum pArray with
  | nil =>
    cases hsum
    cases hplace
    exact ⟨(Int.add_zero _).symm, rfl⟩
  | cons p tmp ih =>
    obtain ⟨letter, value, n, rfl, hn, hsum⟩ := sumPercentages_cons hsum
    obtain ⟨cmd, hentry, hplace⟩ := placePercentages_cons hn hplace
    have hrest := ih hsum hplace
    rw [List.filterMap_cons_some hentry, List.map_cons, List.sum_cons, ← add_assoc]
    exact hrest

/-- The table of an option's entries, in hundredths. -/
def table (percentages : Str) : Cmd → Int × Int := lastSteps 0 (entries percentages) fun _ => (0, 0)

/-- What is accepted sums to 100, and the table is that of the last entries, in hundredths. -/
theorem processPercentages_ok {percentages : Str} {percents : Cmd → Rat × Rat}
    (hok : processPercentages percentages = .ok percents) :
    ((entries percentages).map Prod.snd).sum = 100 ∧
      percents = fun cmd =>
        (((table percentages cmd).1 : Rat) / 100, ((table percentages cmd).2 : Rat) / 100) := by
  unfold processPercentages at hok
  obtain ⟨total, hsum, hok⟩ := bind_eq_ok.mp hok
  have hhundred : total = 100 := by
    by_contra hne
    simp only [hne, ne_eq, not_false_eq_true, if_true] at hok
    cases hok
  simp only [hhundred, ne_eq, not_true_eq_false, if_false] at hok
  obtain ⟨pArray, hplace, hok⟩ := bind_eq_ok.mp hok
  have hloops := loops_ok hsum hplace
  rw [zero_add, hhundred] at hloops
  refine ⟨hloops.1.symm, ?_⟩
  cases hok
  rw [hloops.2]
  rfl

/-! ## Covering the draws -/

section Covering

variable {percentages : Str} {percents : Cmd → Rat × Rat}

/-- A draw looks up its hundredth. -/
theorem within_iff (hok : processPercentages percentages = .ok percents) (cmd : Cmd)
    (chances : Rat) :
    Within percents cmd chances ↔ cmd ∈ covering ⌊chances * 100⌋ (table percentages) := by
  rw [(processPercentages_ok hok).2, mem_covering, Int.le_floor, Int.floor_lt, Within,
    div_le_iff₀ (by norm_num), lt_div_iff₀ (by norm_num)]

/-- The commands over a hundredth, counted by the entries: those that run up over it, less those
that run down or are overwritten. -/
theorem card_covering_table (hok : processPercentages percentages = .ok percents) (h : Int) :
    (covering h (table percentages)).card + upsAgain h 0 (entries percentages) +
        (if 100 ≤ h then 1 else 0) =
      downs h 0 (entries percentages) + (if 0 ≤ h then 1 else 0) := by
  let none : Cmd → Int × Int := fun _ => (0, 0)
  have hempty : ∀ cmd, ¬((none cmd).1 ≤ h ∧ h < (none cmd).2) := fun _ hk => by
    show False
    have hle : 0 ≤ h := hk.1
    have hlt : h < 0 := hk.2
    omega
  have hcount := card_covering_add h 0 (entries percentages) hempty
  rw [(processPercentages_ok hok).1, zero_add] at hcount
  exact hcount

end Covering

/-- Over each hundredth below 100 as many entries run down as run up and are overwritten later;
elsewhere at most one more. -/
def Balanced (es : List (Cmd × Int)) : Prop :=
  (∀ h, 0 ≤ h → h < 100 → downs h 0 es = upsAgain h 0 es) ∧
    ∀ h, h < 0 ∨ 100 ≤ h → downs h 0 es ≤ upsAgain h 0 es + 1

/-! ## The abort -/

/-- A part of the generator that never reaches `exit(1)`. -/
def NoExit {α : Type} (m : GenM α) : Prop := ∀ st, m st ≠ .error .exit

section NoExit

variable {α β : Type}

theorem noExit_pure (a : α) : NoExit (pure a) := fun _ h => nomatch h

/-- A part that never exits, followed by others that never do. -/
theorem noExit_bind {m : GenM α} {f : α → GenM β} (hm : NoExit m) (hf : ∀ a, NoExit (f a)) :
    NoExit (m >>= f) := by
  intro st h
  have hrun : (m st >>= fun p => f p.1 p.2) = .error .exit := h
  cases hst : m st with
  | error e =>
    rw [hst] at hrun
    have he : e = .exit := Except.error.inj hrun
    exact hm st (he ▸ hst)
  | ok p =>
    rw [hst] at hrun
    exact hf p.1 p.2 hrun

theorem noExit_get : NoExit get := fun _ h => nomatch h

theorem noExit_modify (f : Generator → Generator) : NoExit (modify f) := fun _ h => nomatch h

theorem noExit_item (xs : List α) (i : Int) : NoExit (liftM (item xs i) : GenM α) := by
  intro st h
  cases hi : OsLab.item xs i with
  | ok x =>
    rw [hi] at h
    cases h
  | error e =>
    rw [hi] at h
    -- `item` raises `IndexError`
    unfold OsLab.item at hi
    split at hi
    · cases hi
    · cases hi
      cases h

theorem noExit_random (draws : Nat → Rat) : NoExit (random draws) := fun _ h => nomatch h

theorem noExit_randomInt (draws : Nat → Rat) (n : Nat) : NoExit (randomInt draws n) :=
  noExit_bind (noExit_random draws) fun _ => noExit_pure _

theorem noExit_pickRandom (draws : Nat → Rat) (aList : List Str) :
    NoExit (pickRandom draws aList) := by
  unfold pickRandom
  split
  · exact noExit_pure []
  · exact noExit_bind (noExit_randomInt draws _) fun index => noExit_item aList index

theorem noExit_makeRandomFileName (draws : Nat → Rat) (parentDir : Str) :
    NoExit (makeRandomFileName draws parentDir) :=
  noExit_bind (noExit_randomInt draws 26) fun _ => noExit_bind (noExit_randomInt draws 26) fun _ =>
    noExit_bind (noExit_randomInt draws 10) fun _ => noExit_pure _

/-- No branch exits. -/
theorem noExit_makeCommand (draws : Nat → Rat) (cmd : Cmd) :
    NoExit (makeCommand draws cmd) := by
  cases cmd with
  | c =>
    refine noExit_bind noExit_get fun st => noExit_bind (noExit_pickRandom draws _) fun pdir => ?_
    split
    · exact noExit_pure none
    · exact noExit_bind (noExit_makeRandomFileName draws pdir) fun _ =>
        noExit_bind (noExit_modify _) fun _ => noExit_pure _
  | w =>
    refine noExit_bind noExit_get fun st => noExit_bind (noExit_pickRandom draws _) fun pfile => ?_
    split
    · exact noExit_pure none
    · exact noExit_bind (noExit_randomInt draws 8) fun _ =>
        noExit_bind (noExit_randomInt draws 8) fun _ => noExit_pure _
  | d =>
    refine noExit_bind noExit_get fun st => noExit_bind (noExit_pickRandom draws _) fun pdir => ?_
    split
    · exact noExit_pure none
    · exact noExit_bind (noExit_makeRandomFileName draws pdir) fun _ =>
        noExit_bind (noExit_modify _) fun _ => noExit_pure _
  | r =>
    refine noExit_bind noExit_get fun st => ?_
    dsimp only
    split
    · exact noExit_pure none
    · exact noExit_bind (noExit_randomInt draws _) fun _ => noExit_bind (noExit_item _ _) fun _ =>
        noExit_bind (noExit_modify _) fun _ => noExit_pure _
  | l =>
    refine noExit_bind noExit_get fun st => noExit_bind (noExit_randomInt draws _) fun index =>
      noExit_bind noExit_get fun st' => noExit_bind (noExit_pickRandom draws _) fun pdir => ?_
    split
    · exact noExit_pure none
    · exact noExit_bind (noExit_makeRandomFileName draws pdir) fun _ =>
        noExit_bind (noExit_item _ _) fun _ => noExit_bind (noExit_modify _) fun _ => noExit_pure _
  | s => exact noExit_pure (some ['s'])

/-- A round aborts only for a draw that no command is over. -/
theorem noExit_nextCommand {draws : Nat → Rat} {percents : Cmd → Rat × Rat}
    (hchosen : ∀ n, chosen percents (draws n) ≠ none) : NoExit (nextCommand draws percents) := by
  intro st h
  have hround : (match chosen percents (draws st.drawn) with
    | none => throw .exit
    | some cmd => makeCommand draws cmd >>= fun command =>
      match command with
      | none => pure ()
      | some command => modify fun st : Generator => { st with
          numCommands := st.numCommands - 1
          commandList :=
            if st.commandList = [] then command
            else st.commandList ++ ':' :: command } : GenM Unit)
      { st with drawn := st.drawn + 1 } = .error .exit := h
  cases hcmd : chosen percents (draws st.drawn) with
  | none => exact hchosen st.drawn hcmd
  | some cmd =>
    rw [hcmd] at hround
    refine noExit_bind (noExit_makeCommand draws cmd) (fun command => ?_) _ hround
    cases command with
    | none => exact noExit_pure ()
    | some command => exact noExit_modify _

/-- So the generator never exits if some command is over every draw. -/
theorem noExit_rounds {draws : Nat → Rat} {percents : Cmd → Rat × Rat}
    (hchosen : ∀ n, chosen percents (draws n) ≠ none) (n : Nat) :
    NoExit (rounds draws percents n) := by
  induction n with
  | zero => exact noExit_pure ()
  | succ n ih =>
    refine noExit_bind noExit_get fun st => ?_
    split
    · exact noExit_bind (noExit_nextCommand hchosen) fun _ => ih
    · exact noExit_pure ()

end NoExit

/-! ## Accepted percentages -/

/-- What an interval for each command is for. -/
structure CoversDraws (percents : Cmd → Rat × Rat) : Prop where
  disjoint : ∀ cmd cmd', cmd ≠ cmd' →
    Disjoint (Set.Ico (percents cmd).1 (percents cmd).2)
      (Set.Ico (percents cmd').1 (percents cmd').2)
  covers : Set.Ico 0 1 ⊆ ⋃ cmd, Set.Ico (percents cmd).1 (percents cmd).2
  /-- Each draw is over one command, and `make_command_list` takes its branch. -/
  selects : ∀ chances, IsDraw chances →
    ∃! cmd, Within percents cmd chances ∧ chosen percents chances = some cmd
  noAbort : ∀ draws, (∀ n, IsDraw (draws n)) → ∀ numCommands n,
    makeCommandList draws percents numCommands n ≠ .error .exit

/-- The branch that is taken is that of the one command over the draw. -/
theorem chosen_of_within {percents : Cmd → Rat × Rat} {cmd : Cmd} {chances : Rat}
    (hcmd : Within percents cmd chances)
    (honly : ∀ cmd', Within percents cmd' chances → cmd' = cmd) :
    chosen percents chances = some cmd := by
  cases hfind : chosen percents chances with
  | none =>
    have hnone := List.find?_eq_none.mp hfind cmd (mem_cmdList cmd)
    exact absurd (decide_eq_true hcmd) hnone
  | some cmd' =>
    unfold chosen at hfind
    have hwithin := List.find?_some hfind
    rw [honly cmd' (of_decide_eq_true hwithin)]

section Accepted

variable {percentages : Str} {percents : Cmd → Rat × Rat}

/-- A hundredth as a draw. -/
theorem floor_hundredth (h : Int) : ⌊(h / 100 : Rat) * 100⌋ = h := by
  rw [div_mul_cancel₀ _ (by norm_num)]
  exact Int.floor_intCast h

/-- Disjoint intervals: at most one command over each hundredth. -/
theorem card_le_one_of_disjoint (hok : processPercentages percentages = .ok percents)
    (hdisjoint : ∀ cmd cmd', cmd ≠ cmd' →
      Disjoint (Set.Ico (percents cmd).1 (percents cmd).2)
        (Set.Ico (percents cmd').1 (percents cmd').2)) (h : Int) :
    (covering h (table percentages)).card ≤ 1 := by
  rw [Finset.card_le_one]
  intro cmd hcmd cmd' hcmd'
  by_contra hne
  rw [← floor_hundredth h, ← within_iff hok] at hcmd hcmd'
  exact Set.disjoint_left.mp (hdisjoint cmd cmd' hne) hcmd hcmd'

/-- Intervals that cover the draws once come from balanced entries. -/
theorem balanced_of_covers (hok : processPercentages percentages = .ok percents)
    (hcovers : CoversDraws percents) : Balanced (entries percentages) := by
  constructor
  · intro h hnonneg hlt
    have hcount := card_covering_table hok h
    have hle := card_le_one_of_disjoint hok hcovers.disjoint h
    -- the hundredth is drawn, so that some command is over it
    have hdraw : (h / 100 : Rat) ∈ Set.Ico (0 : Rat) 1 := by
      constructor
      · exact div_nonneg (by exact_mod_cast hnonneg) (by norm_num)
      · rw [div_lt_one (by norm_num)]
        exact_mod_cast hlt
    obtain ⟨cmd, hcmd⟩ := Set.mem_iUnion.mp (hcovers.covers hdraw)
    have hmem := (within_iff hok cmd _).mp hcmd
    rw [floor_hundredth] at hmem
    have hpos := Finset.card_pos.mpr ⟨cmd, hmem⟩
    rw [if_pos hnonneg, if_neg (by omega)] at hcount
    omega
  · intro h hout
    have hcount := card_covering_table hok h
    have hle := card_le_one_of_disjoint hok hcovers.disjoint h
    rcases hout with hneg | hlarge
    · rw [if_neg (by omega), if_neg (by omega)] at hcount
      omega
    · rw [if_pos (by omega), if_pos (by omega)] at hcount
      omega

/-- Balanced entries leave at most one command over a hundredth, on either side of 0 and 100. -/
theorem card_le_one_of_balanced (hok : processPercentages percentages = .ok percents)
    (hbalanced : Balanced (entries percentages)) (h : Int) :
    (covering h (table percentages)).card ≤ 1 := by
  have hcount := card_covering_table hok h
  by_cases hneg : h < 0
  · have hout := hbalanced.2 h (.inl hneg)
    rw [if_neg (by omega), if_neg (by omega)] at hcount
    omega
  · by_cases hlarge : 100 ≤ h
    · have hout := hbalanced.2 h (.inr hlarge)
      rw [if_pos hlarge, if_pos (by omega)] at hcount
      omega
    · have hin := hbalanced.1 h (by omega) (by omega)
      rw [if_neg hlarge, if_pos (by omega)] at hcount
      omega

/-- One command is over each draw. -/
theorem exists_within_of_balanced (hok : processPercentages percentages = .ok percents)
    (hbalanced : Balanced (entries percentages)) {chances : Rat} (hdraw : IsDraw chances) :
    ∃ cmd, Within percents cmd chances := by
  have hcount := card_covering_table hok ⌊chances * 100⌋
  have hnonneg : 0 ≤ ⌊chances * 100⌋ :=
    Int.floor_nonneg.mpr (mul_nonneg hdraw.1 (by norm_num))
  have hlt : ⌊chances * 100⌋ < 100 := by
    rw [Int.floor_lt]
    have hscale := mul_lt_mul_of_pos_right hdraw.2 (show (0 : Rat) < 100 by norm_num)
    rw [one_mul] at hscale
    exact_mod_cast hscale
  have hin := hbalanced.1 _ hnonneg hlt
  rw [if_neg (by omega), if_pos hnonneg] at hcount
  have hpos : 0 < (covering ⌊chances * 100⌋ (table percentages)).card := by omega
  obtain ⟨cmd, hcmd⟩ := Finset.card_pos.mp hpos
  exact ⟨cmd, (within_iff hok cmd chances).mpr hcmd⟩

/-- And no other is. -/
theorem within_unique_of_balanced (hok : processPercentages percentages = .ok percents)
    (hbalanced : Balanced (entries percentages)) {chances : Rat} {cmd cmd' : Cmd}
    (hcmd : Within percents cmd chances) (hcmd' : Within percents cmd' chances) : cmd = cmd' :=
  Finset.card_le_one.mp (card_le_one_of_balanced hok hbalanced _) cmd
    ((within_iff hok cmd chances).mp hcmd) cmd' ((within_iff hok cmd' chances).mp hcmd')

theorem covers_of_balanced (hok : processPercentages percentages = .ok percents)
    (hbalanced : Balanced (entries percentages)) : CoversDraws percents := by
  have hchosen : ∀ chances cmd, Within percents cmd chances →
      chosen percents chances = some cmd := fun chances cmd hcmd =>
    chosen_of_within hcmd fun cmd' hcmd' => within_unique_of_balanced hok hbalanced hcmd' hcmd
  refine ⟨?_, ?_, ?_, ?_⟩
  · intro cmd cmd' hne
    rw [Set.disjoint_left]
    intro chances hcmd hcmd'
    exact hne (within_unique_of_balanced hok hbalanced hcmd hcmd')
  · intro chances hdraw
    obtain ⟨cmd, hcmd⟩ := exists_within_of_balanced hok hbalanced hdraw
    exact Set.mem_iUnion.mpr ⟨cmd, hcmd⟩
  · intro chances hdraw
    obtain ⟨cmd, hcmd⟩ := exists_within_of_balanced hok hbalanced hdraw
    refine ⟨cmd, ⟨hcmd, hchosen chances cmd hcmd⟩, fun cmd' hcmd' => ?_⟩
    exact within_unique_of_balanced hok hbalanced hcmd'.1 hcmd
  · intro draws hdraws numCommands n hexit
    have hsome : ∀ n, chosen percents (draws n) ≠ none := by
      intro n hnone
      obtain ⟨cmd, hcmd⟩ := exists_within_of_balanced hok hbalanced (hdraws n)
      rw [hchosen _ cmd hcmd] at hnone
      cases hnone
    have hrounds : (rounds draws percents n ⟨numCommands, [], [], [['/']], 0⟩ >>= fun p =>
        Except.ok p.2) = .error .exit := hexit
    cases hst : rounds draws percents n ⟨numCommands, [], [], [['/']], 0⟩ with
    | error e =>
      rw [hst] at hrounds
      have he : e = .exit := Except.error.inj hrounds
      exact noExit_rounds hsome n _ (he ▸ hst)
    | ok p =>
      rw [hst] at hrounds
      cases hrounds

/-- **When percentages cover the draws.** The intervals of accepted percentages do what they are for
exactly when every hundredth is balanced. -/
theorem coversDraws_iff (hok : processPercentages percentages = .ok percents) :
    CoversDraws percents ↔ Balanced (entries percentages) :=
  ⟨balanced_of_covers hok, covers_of_balanced hok⟩

end Accepted

theorem coversDraws_default :
    ∃ percents, processPercentages "c30,w30,d10,r20,l10,s0".toList = .ok percents ∧
      (CoversDraws percents ↔ Balanced (entries "c30,w30,d10,r20,l10,s0".toList)) := by
  have haccepted : (processPercentages "c30,w30,d10,r20,l10,s0".toList).isOk = true := by
    decide +kernel
  cases hok : processPercentages "c30,w30,d10,r20,l10,s0".toList with
  | error e =>
    rw [hok] at haccepted
    cases haccepted
  | ok percents => exact ⟨percents, rfl, coversDraws_iff hok⟩

/-- The second `c50` takes the place of the first: a draw of 1/4 aborts. -/
theorem repeated_letter :
    ∃ percents, processPercentages "c50,c50".toList = .ok percents ∧
      IsDraw (1 / 4) ∧ (∀ cmd, ¬Within percents cmd (1 / 4)) ∧
      makeCommandList (fun _ => 1 / 4) percents 1 1 = .error .exit := by
  have hrun : (processPercentages "c50,c50".toList).map (fun percents =>
      (decide (∀ cmd ∈ cmdList, ¬Within percents cmd (1 / 4)),
        match makeCommandList (fun _ => 1 / 4) percents 1 1 with
        | .error e => some e
        | .ok _ => none)) = .ok (true, some .exit) := by
    decide +kernel
  cases hok : processPercentages "c50,c50".toList with
  | error e =>
    rw [hok] at hrun
    cases hrun
  | ok percents =>
    rw [hok] at hrun
    have hpair := Except.ok.inj hrun
    refine ⟨percents, rfl, by decide +kernel, fun cmd => ?_, ?_⟩
    · exact of_decide_eq_true (congrArg Prod.fst hpair) cmd (mem_cmdList cmd)
    · have hexit := congrArg Prod.snd hpair
      dsimp only at hexit
      split at hexit
      · rename_i e he
        rw [he, Option.some.inj hexit]
      · cases hexit

end OsLab.Lfs
