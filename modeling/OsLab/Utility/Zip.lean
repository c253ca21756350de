import Mathlib.Algebra.Group.Nat.Defs
import OsLab.Lib.RunLength

/-!
# my-zip and my-unzip

`my-zip` writes a record for each run: its length, an `int` in four bytes, and the byte. `my-unzip`
reads records. Both end their output with a newline. Variables that the programs do not initialise
are arguments here, so that results hold whatever they contain.

* **`myZip`**, **`myUnzip`** -- the two programs, as functions from the bytes of a file to the bytes
  on `stdout`.
* **`zipLoop_eq`**, **`unzipLoop_records`** -- what the loops amount to in terms of `runs` and
  records: the zip loop leaves out the last run.
* **`myUnzip_myZip_iff`** -- when a file comes back.
* **`unzipLoop_eq_records_iff`**, **`myUnzip_records_iff`** -- what `my-unzip` makes of any file, in
  particular of one that ends inside a record.
-/

namespace OsLab.Utility

open RunLength

abbrev Byte := UInt8

/-- `'\n'` -/
def newline : Byte := 10

/-- The bytes of an `int`, the lowest first. -/
def intBytes (n : BitVec 32) : List Byte :=
  [.ofNat n.toNat, .ofNat (n.toNat / 256), .ofNat (n.toNat / 65536), .ofNat (n.toNat / 16777216)]

/-- The `int` that four bytes make. -/
def ofBytes (b₀ b₁ b₂ b₃ : Byte) : BitVec 32 :=
  .ofNat 32 (b₀.toNat + 256 * b₁.toNat + 65536 * b₂.toNat + 16777216 * b₃.toNat)

/-! ## my-zip -/

/-- `while((chary = fgetc(file)) != EOF)`: what it writes to `stdout`. -/
def zipLoop (count : BitVec 32) (temp : Byte) (notfirstCycle : Nat) : List Byte → List Byte
  | [] => []
  | chary :: file =>
    if notfirstCycle = 0 then
      zipLoop count chary (notfirstCycle + 1) file
    else if temp = chary then
      zipLoop (count + 1) temp notfirstCycle file
    else
      intBytes count ++ [temp] ++ zipLoop 1 chary notfirstCycle file

/-- `temp` is not initialised. -/
def myZip (temp : Byte) (file : List Byte) : List Byte := zipLoop 1 temp 0 file ++ [newline]

/-! ## my-unzip -/

/-- `while(fread(&count, sizeof(int), 1, file))`: what it writes to `stdout`. A `fread` that
finds too little leaves the loop, or leaves `chary` as it was. -/
def unzipLoop (chary : Byte) : List Byte → List Byte
  | b₀ :: b₁ :: b₂ :: b₃ :: chary' :: file =>
    List.replicate (ofBytes b₀ b₁ b₂ b₃).toInt.toNat chary' ++ unzipLoop chary' file
  | [b₀, b₁, b₂, b₃] => List.replicate (ofBytes b₀ b₁ b₂ b₃).toInt.toNat chary
  | _ => []

/-- `chary` is not initialised. -/
def myUnzip (chary : Byte) (file : List Byte) : List Byte := unzipLoop chary file ++ [newline]

/-! ## Records -/

/-- The record of a run. -/
def record (r : Nat × Byte) : List Byte := intBytes (.ofNat 32 r.1) ++ [r.2]

/-- Runs that an `int` can count. -/
def Countable (x : List Byte) : Prop := ∀ r ∈ runs x, r.1 < 2 ^ 31

/-- The four bytes of an `int`, read again, are that `int`. -/
theorem ofBytes_intBytes (n : BitVec 32) :
    ofBytes (.ofNat n.toNat) (.ofNat (n.toNat / 256)) (.ofNat (n.toNat / 65536))
      (.ofNat (n.toNat / 16777216)) = n := by
  have hn := n.isLt
  apply BitVec.eq_of_toNat_eq
  simp only [ofBytes, UInt8.toNat_ofNat', BitVec.toNat_ofNat]
  omega

/-- A count below 2^31 is not negative as an `int`. -/
theorem toInt_ofNat {n : Nat} (hn : n < 2 ^ 31) : (BitVec.ofNat 32 n).toInt.toNat = n := by
  have hn' : n < 2 ^ 32 := by omega
  rw [BitVec.toInt_eq_toNat_of_lt]
  · rw [BitVec.toNat_ofNat, Nat.mod_eq_of_lt hn']
    rfl
  · rw [BitVec.toNat_ofNat, Nat.mod_eq_of_lt hn']
    omega

/-- The loop reads back what the records say, and the newline behind them is too short for another
record. -/
theorem unzipLoop_records {rs : List (Nat × Byte)} (hrs : ∀ r ∈ rs, r.1 < 2 ^ 31) (chary : Byte) :
    unzipLoop chary (rs.flatMap record ++ [newline]) = expand rs := by
  induction rs generalizing chary with
  | nil => rfl
  | cons r rs ih =>
    rw [List.forall_mem_cons] at hrs
    show unzipLoop chary (_ :: _ :: _ :: _ :: r.2 :: (rs.flatMap record ++ [newline])) = _
    unfold unzipLoop
    rw [ofBytes_intBytes, toInt_ofNat hrs.1, ih hrs.2]
    rfl

/-- The loop writes a record whenever a run ends and leaves out the run it is in when the file ends.
By induction on the file. -/
theorem zipLoop_eq (n : Nat) (temp : Byte) (file : List Byte) :
    zipLoop (.ofNat 32 n) temp 1 file = (runsFrom temp n file).dropLast.flatMap record := by
  induction file generalizing n temp with
  | nil => rfl
  | cons chary file ih =>
    unfold zipLoop runsFrom
    rw [if_neg Nat.one_ne_zero]
    by_cases hrun : temp = chary
    · rw [if_pos hrun, if_pos hrun, ← ih (n + 1) temp, BitVec.ofNat_add]
      rfl
    · rw [if_neg hrun, if_neg hrun, List.dropLast_cons_of_ne_nil (runsFrom_ne_nil chary 1 file)]
      show _ ++ zipLoop (.ofNat 32 1) chary 1 file = record (n, temp) ++ _
      rw [ih]
      rfl

/-- The program writes the records of all runs but the last, and a newline. -/
theorem myZip_eq (temp : Byte) (x : List Byte) :
    myZip temp x = (runs x).dropLast.flatMap record ++ [newline] := by
  cases x with
  | nil => rfl
  | cons a x => exact congrArg (· ++ [newline]) (zipLoop_eq 1 a x)

/-- What comes back are the runs but the last, written out. -/
theorem myUnzip_myZip {x : List Byte} (hx : Countable x) (chary temp : Byte) :
    myUnzip chary (myZip temp x) = expand (runs x).dropLast ++ [newline] := by
  have hshort : ∀ r ∈ (runs x).dropLast, r.1 < 2 ^ 31 :=
    fun r hr => hx r ((List.dropLast_sublist _).subset hr)
  rw [myZip_eq, myUnzip, unzipLoop_records hshort]

/-- **Only the empty file comes back.** On every other file the last run is lost, so neither are all
its runs written nor does it come back. -/
theorem myUnzip_myZip_iff {x : List Byte} (hx : Countable x) (chary temp : Byte) :
    (myUnzip chary (myZip temp x) = x ++ [newline] ↔ x = []) ∧
      (myZip temp x = (runs x).flatMap record ++ [newline] ↔ x = []) := by
  constructor
  · rw [myUnzip_myZip hx, List.append_cancel_right_eq]
    constructor
    · intro heq
      by_contra hne
      exact expand_dropLast_ne hne heq
    · rintro rfl
      rfl
  · rw [myZip_eq, List.append_cancel_right_eq]
    constructor
    · intro heq
      by_contra hne
      -- one record less
      have hruns : runs x ≠ [] := fun hnil => hne (runs_eq_nil.mp hnil)
      have hlen := congrArg List.length heq
      have hrecord : ∀ rs : List (Nat × Byte), (rs.flatMap record).length = 5 * rs.length := by
        intro rs
        induction rs with
        | nil => rfl
        | cons r rs ih =>
          rw [List.flatMap_cons, List.length_append, ih, List.length_cons]
          show 5 + _ = _
          omega
      rw [hrecord, hrecord, List.length_dropLast] at hlen
      have hpos := List.length_pos_iff.mpr hruns
      omega
    · rintro rfl
      rfl

/-- The empty file comes back, and `aab` does not. -/
theorem myUnzip_myZip_aab :
    (myUnzip 0 (myZip 0 []) = [] ++ [newline] ∧
        myZip 0 [] = (runs []).flatMap record ++ [newline]) ∧
      myUnzip 0 (myZip 0 [97, 97, 98]) ≠ [97, 97, 98] ++ [newline] ∧
        myZip 0 [97, 97, 98] ≠ (runs [97, 97, 98]).flatMap record ++ [newline] := by
  have hempty : Countable [] := fun r hr => by cases hr
  have hshort : Countable [97, 97, 98] := by
    unfold Countable
    decide
  obtain ⟨hback, hrecorded⟩ := myUnzip_myZip_iff hempty 0 0
  obtain ⟨hback', hrecorded'⟩ := myUnzip_myZip_iff hshort 0 0
  exact ⟨⟨hback.mpr rfl, hrecorded.mpr rfl⟩, fun h => List.cons_ne_nil _ _ (hback'.mp h),
    fun h => List.cons_ne_nil _ _ (hrecorded'.mp h)⟩

/-- `aab` comes back as `aa`, whatever the uninitialised variables hold. -/
theorem lastRun_lost :
    Countable [97, 97, 98] ∧ ∀ chary temp,
      myUnzip chary (myZip temp [97, 97, 98]) = [97, 97] ++ [newline] ∧
        myUnzip chary (myZip temp [97, 97, 98]) ≠ [97, 97, 98] ++ [newline] := by
  have hshort : Countable [97, 97, 98] := by
    unfold Countable
    decide
  refine ⟨hshort, fun chary temp => ?_⟩
  rw [myUnzip_myZip hshort]
  decide

/-! ## Files that end early -/

/-- The complete records at the front of a file: a count and a byte. -/
def records : List Byte → List (BitVec 32 × Byte)
  | b₀ :: b₁ :: b₂ :: b₃ :: chary :: file => (ofBytes b₀ b₁ b₂ b₃, chary) :: records file
  | _ => []

/-- What a record asks for. -/
def copies (r : BitVec 32 × Byte) : List Byte := List.replicate r.1.toInt.toNat r.2

/-- The file ends behind a count that asks for something: the byte is missing. -/
def EndsInCount (z : List Byte) : Prop :=
  ∃ whole b₀ b₁ b₂ b₃, 5 ∣ whole.length ∧ z = whole ++ [b₀, b₁, b₂, b₃] ∧
    0 < (ofBytes b₀ b₁ b₂ b₃).toInt

/-- A record in front does not change how a file ends. -/
theorem endsInCount_record (b₀ b₁ b₂ b₃ chary : Byte) (file : List Byte) :
    EndsInCount (b₀ :: b₁ :: b₂ :: b₃ :: chary :: file) ↔ EndsInCount file := by
  constructor
  · intro ⟨whole, c₀, c₁, c₂, c₃, hwhole, hz, hpos⟩
    have hlen := congrArg List.length hz
    simp only [List.length_cons, List.length_append, List.length_nil] at hlen
    -- what is whole starts with this record
    have hfive : 5 ≤ whole.length := by omega
    have hfile := congrArg (List.drop 5) hz
    rw [List.drop_append_of_le_length hfive] at hfile
    refine ⟨whole.drop 5, c₀, c₁, c₂, c₃, ?_, hfile, hpos⟩
    rw [List.length_drop]
    exact Nat.dvd_sub hwhole (Nat.dvd_refl 5)
  · intro ⟨whole, c₀, c₁, c₂, c₃, hwhole, hfile, hpos⟩
    refine ⟨b₀ :: b₁ :: b₂ :: b₃ :: chary :: whole, c₀, c₁, c₂, c₃, ?_, ?_, hpos⟩
    · show 5 ∣ whole.length + 5
      exact Nat.dvd_add hwhole (Nat.dvd_refl 5)
    · rw [hfile]
      rfl

/-- Four bytes alone are a count; whether it asks for something is its sign. -/
theorem endsInCount_count (b₀ b₁ b₂ b₃ : Byte) :
    EndsInCount [b₀, b₁, b₂, b₃] ↔ 0 < (ofBytes b₀ b₁ b₂ b₃).toInt := by
  constructor
  · intro ⟨whole, c₀, c₁, c₂, c₃, hwhole, hz, hpos⟩
    have hlen := congrArg List.length hz
    rw [List.length_append, List.length_cons, List.length_cons, List.length_cons,
      List.length_cons] at hlen
    have hnil : whole = [] := List.eq_nil_of_length_eq_zero (by simpa using hlen)
    rw [hnil, List.nil_append] at hz
    cases hz
    exact hpos
  · intro hpos
    exact ⟨[], b₀, b₁, b₂, b₃, Nat.dvd_zero 5, rfl, hpos⟩

/-- Fewer than four bytes are no count. -/
theorem not_endsInCount_of_short {z : List Byte} (hz : z.length < 4) : ¬EndsInCount z := by
  intro ⟨whole, b₀, b₁, b₂, b₃, _, heq, _⟩
  rw [heq, List.length_append] at hz
  exact absurd hz (by simp)

/-- A count without its byte is the one thing that the loop writes and no record asks for: it
repeats the byte of the record before. -/
theorem unzipLoop_eq_records_iff (chary : Byte) (z : List Byte) :
    unzipLoop chary z = (records z).flatMap copies ↔ ¬EndsInCount z := by
  induction chary, z using unzipLoop.induct with
  | case1 chary b₀ b₁ b₂ b₃ chary' file ih =>
    rw [endsInCount_record, ← ih]
    show copies (ofBytes b₀ b₁ b₂ b₃, chary') ++ unzipLoop chary' file =
      copies (ofBytes b₀ b₁ b₂ b₃, chary') ++ (records file).flatMap copies ↔ _
    rw [List.append_cancel_left_eq]
  | case2 chary b₀ b₁ b₂ b₃ =>
    rw [endsInCount_count]
    show List.replicate _ chary = [] ↔ _
    rw [List.replicate_eq_nil_iff, Int.toNat_eq_zero, Int.not_lt]
  | case3 z chary hrecord hcount =>
    have hz : z.length < 4 := by
      match z with
      | [] | [_] | [_, _] | [_, _, _] => simp
      | [b₀, b₁, b₂, b₃] => exact absurd rfl (hcount b₀ b₁ b₂ b₃)
      | b₀ :: b₁ :: b₂ :: b₃ :: b :: file => exact absurd rfl (hrecord b₀ b₁ b₂ b₃ b file)
    have hnone : unzipLoop chary z = [] ∧ records z = [] := by
      match z with
      | [] | [_] | [_, _] | [_, _, _] => exact ⟨rfl, rfl⟩
    rw [hnone.1, hnone.2]
    exact iff_of_true rfl (not_endsInCount_of_short hz)

/-- **`my-unzip` writes what the complete records ask for**, unless the file ends in a count that
asks for something. -/
theorem myUnzip_records_iff (chary : Byte) (z : List Byte) :
    myUnzip chary z = (records z).flatMap copies ++ [newline] ↔ ¬EndsInCount z := by
  rw [myUnzip, List.append_cancel_right_eq]
  exact unzipLoop_eq_records_iff chary z

/-- Behind `1a` the count 2 has no byte, and `a` is written twice more. -/
theorem carried_over :
    (records [1, 0, 0, 0, 97, 2, 0, 0, 0]).flatMap copies = [97] ∧
      ∀ chary, myUnzip chary [1, 0, 0, 0, 97, 2, 0, 0, 0] = [97, 97, 97] ++ [newline] ∧
        myUnzip chary [1, 0, 0, 0, 97, 2, 0, 0, 0] ≠
          (records [1, 0, 0, 0, 97, 2, 0, 0, 0]).flatMap copies ++ [newline] := by
  refine ⟨by decide, fun chary => ?_⟩
  have hwritten : myUnzip chary [1, 0, 0, 0, 97, 2, 0, 0, 0] = [97, 97, 97] ++ [newline] := rfl
  rw [hwritten]
  decide

end OsLab.Utility
