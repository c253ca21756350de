import Mathlib.Algebra.BigOperators.Ring.Finset
import Mathlib.Data.List.GetD
import Mathlib.Data.ZMod.Basic
import OsLab.Lib.RunningSums

/-!
# The checksum homework

One pass over the data computes three checksums: the sum, the xor and Fletcher's pair. Modulo 255
Fletcher's pair is two running sums, so what it detects is read off `OsLab.Lib.RunningSums` over the
ring of residues.

* **`checksum`**, **`fletcher`** -- the loop, and the pair that the program prints.
* **`fletcher_eq_iff_sums`** -- two lists of the same length have the same pair exactly if both sums
  agree modulo 255.
* **`fletcher_eq_iff_two`**, **`fletcher_set_eq_iff`**, **`fletcher_swap_iff`** -- two corrupted
  bytes, one, and two neighbours that change places.
* **`fletcher_detects`** -- the closed forms of the pair and all of these, and what the sum and the
  xor do not see.
-/

namespace OsLab.Checksums

open RunningSums

/-- What the loop keeps. -/
structure Sums where
  add : Nat
  xor : Nat
  fletcherA : Nat
  fletcherB : Nat
deriving DecidableEq

/-- `for value in values` -/
def Sums.next (s : Sums) (value : UInt8) : Sums :=
  let fletcherA := (s.fletcherA + value.toNat) % 255
  { add := (s.add + value.toNat) % 256
    xor := s.xor ^^^ value.toNat
    fletcherA := fletcherA
    fletcherB := (s.fletcherB + fletcherA) % 255 }

def checksum (values : List UInt8) : Sums := values.foldl Sums.next ⟨0, 0, 0, 0⟩

/-- `Fletcher(a,b)` -/
def fletcher (values : List UInt8) : Nat × Nat :=
  ((checksum values).fletcherA, (checksum values).fletcherB)

/-! ## Modulo 255 -/

/-- The value at a place of the data. -/
def residue (v : List UInt8) (k : Nat) : ZMod 255 := (v.getD k 0).toNat

def Sums.residues (s : Sums) : ZMod 255 × ZMod 255 := (s.fletcherA, s.fletcherB)

/-- A value does to the residues of the pair what an element does to two running sums. -/
theorem Sums.residues_next (s : Sums) (value : UInt8) :
    (s.next value).residues = RunningSums.add s.residues (value.toNat : ZMod 255) := by
  show ((((s.fletcherA + value.toNat) % 255 : Nat) : ZMod 255),
    (((s.fletcherB + (s.fletcherA + value.toNat) % 255) % 255 : Nat) : ZMod 255)) =
      ((s.fletcherA : ZMod 255) + (value.toNat : ZMod 255),
        (s.fletcherB : ZMod 255) + ((s.fletcherA : ZMod 255) + (value.toNat : ZMod 255)))
  rw [ZMod.natCast_mod, ZMod.natCast_mod, Nat.cast_add, Nat.cast_add, ZMod.natCast_mod,
    Nat.cast_add]

/-- The residues of the pair are the two sums over the places of the data. -/
theorem residues_checksum (v : List UInt8) :
    (checksum v).residues = (∑ k ∈ Finset.range v.length, residue v k,
      ∑ k ∈ Finset.range v.length, (v.length - k) • residue v k) := by
  have hpass : (checksum v).residues =
      (v.map fun b => (b.toNat : ZMod 255)).foldl RunningSums.add (0, 0) := by
    rw [List.foldl_map]
    exact (List.foldl_hom Sums.residues fun s b => (s.residues_next b).symm).symm
  have hplace : ∀ k, (v.map fun b => (b.toNat : ZMod 255)).getD k 0 = residue v k :=
    fun k => List.getD_map v 0 (fun b : UInt8 => (b.toNat : ZMod 255))
  rw [hpass, foldl_add, sum_eq_range, weighted_eq_range, List.length_map]
  simp only [hplace, smul_zero, zero_add]

/-- The pair is reduced in every round, so it stays below 255. -/
theorem checksum_lt (v : List UInt8) :
    (checksum v).fletcherA < 255 ∧ (checksum v).fletcherB < 255 := by
  suffices h : ∀ s : Sums, s.fletcherA < 255 ∧ s.fletcherB < 255 →
      (v.foldl Sums.next s).fletcherA < 255 ∧ (v.foldl Sums.next s).fletcherB < 255 from
    h ⟨0, 0, 0, 0⟩ (by decide)
  induction v with
  | nil => exact fun s hs => hs
  | cons b v ih =>
    intro s _
    exact ih (s.next b) ⟨Nat.mod_lt _ (by decide), Nat.mod_lt _ (by decide)⟩

/-- A number below 255 that has the residue of another one is its remainder. -/
theorem eq_mod_of_cast {a b : Nat} (ha : a < 255) (hab : (a : ZMod 255) = (b : ZMod 255)) :
    a = b % 255 := by
  rw [← (ZMod.natCast_eq_natCast_iff' a b 255).mp hab, Nat.mod_eq_of_lt ha]

/-- Pairs are the same exactly if their residues are, as both are reduced. -/
theorem fletcher_eq_iff_residues {u v : List UInt8} :
    fletcher u = fletcher v ↔ (checksum u).residues = (checksum v).residues := by
  constructor
  · intro heq
    exact congrArg (fun p : Nat × Nat => ((p.1 : ZMod 255), (p.2 : ZMod 255))) heq
  · intro heq
    have hu := checksum_lt u
    have hv := checksum_lt v
    have hA := eq_mod_of_cast hu.1 (congrArg Prod.fst heq)
    have hB := eq_mod_of_cast hu.2 (congrArg Prod.snd heq)
    rw [Nat.mod_eq_of_lt hv.1] at hA
    rw [Nat.mod_eq_of_lt hv.2] at hB
    exact Prod.ext hA hB

/-! ## Closed forms -/

/-- The first sum is the sum of the values modulo 255. -/
theorem fletcherA_eq (v : List UInt8) :
    (checksum v).fletcherA = (∑ k ∈ Finset.range v.length, (v.getD k 0).toNat) % 255 := by
  apply eq_mod_of_cast (checksum_lt v).1
  rw [Nat.cast_sum]
  exact congrArg Prod.fst (residues_checksum v)

/-- The second sum counts each value once for every place from it to the end. -/
theorem fletcherB_eq (v : List UInt8) :
    (checksum v).fletcherB =
      (∑ k ∈ Finset.range v.length, (v.length - k) * (v.getD k 0).toNat) % 255 := by
  apply eq_mod_of_cast (checksum_lt v).2
  rw [Nat.cast_sum]
  have hB : ((checksum v).fletcherB : ZMod 255) =
      ∑ k ∈ Finset.range v.length, (v.length - k) • residue v k :=
    congrArg Prod.snd (residues_checksum v)
  refine hB.trans (Finset.sum_congr rfl ?_)
  intro k _
  rw [nsmul_eq_mul, Nat.cast_mul]
  rfl

/-! ## What changes undetected -/

/-- How much two lists differ at a place. -/
def diff (u v : List UInt8) (k : Nat) : Int := (u.getD k 0).toNat - (v.getD k 0).toNat

/-- Residues differ by the residue of the difference of the bytes. -/
theorem residue_sub (u v : List UInt8) (k : Nat) :
    residue u k - residue v k = (diff u v k : ZMod 255) := by
  unfold residue diff
  rw [Int.cast_sub, Int.cast_natCast, Int.cast_natCast]

/-- Lists of the same length have the same pair exactly if the plain and the weighted sum of their
residues agree. -/
theorem fletcher_eq_iff_sums {u v : List UInt8} (hlen : u.length = v.length) :
    fletcher u = fletcher v ↔
      ∑ k ∈ Finset.range v.length, residue u k = ∑ k ∈ Finset.range v.length, residue v k ∧
      ∑ k ∈ Finset.range v.length, (v.length - k) • residue u k =
        ∑ k ∈ Finset.range v.length, (v.length - k) • residue v k := by
  rw [fletcher_eq_iff_residues, residues_checksum, residues_checksum, Prod.ext_iff, hlen]

/-- Two corrupted bytes: the pair stays the same exactly if their differences cancel modulo 255 and
the first one does so as often as they are places apart. -/
theorem fletcher_eq_iff_two {u v : List UInt8} {i j : Nat} (hlen : u.length = v.length)
    (hij : i < j) (hj : j < v.length) (hagree : ∀ k, k ≠ i → k ≠ j → u.getD k 0 = v.getD k 0) :
    fletcher u = fletcher v ↔
      255 ∣ diff u v i + diff u v j ∧ 255 ∣ (j - i : Int) * diff u v i := by
  have hsame : ∀ k, k ≠ i → k ≠ j → residue u k = residue v k := by
    intro k hki hkj
    rw [residue, residue, hagree k hki hkj]
  rw [fletcher_eq_iff_sums hlen, sums_eq_iff hij hj hsame, residue_sub, residue_sub,
    nsmul_eq_mul, Nat.cast_sub hij.le, ← Int.cast_add]
  have hweight : ((j : ZMod 255) - (i : ZMod 255)) * (diff u v i : ZMod 255) =
      (((j - i : Int) * diff u v i : Int) : ZMod 255) := by
    rw [Int.cast_mul, Int.cast_sub, Int.cast_natCast, Int.cast_natCast]
  rw [hweight, ZMod.intCast_zmod_eq_zero_iff_dvd, ZMod.intCast_zmod_eq_zero_iff_dvd]
  rfl

/-- Two bytes that are the same number modulo 255 are the same byte, or one is 0 and the other
255. -/
theorem toNat_congr_iff (a b : UInt8) :
    (a.toNat : ZMod 255) = (b.toNat : ZMod 255) ↔
      a = b ∨ a = 0 ∧ b = 255 ∨ a = 255 ∧ b = 0 := by
  rw [ZMod.natCast_eq_natCast_iff', ← UInt8.toNat_inj, ← UInt8.toNat_inj, ← UInt8.toNat_inj,
    ← UInt8.toNat_inj, ← UInt8.toNat_inj]
  have ha := a.toNat_lt
  have hb := b.toNat_lt
  show _ ↔ _ ∨ a.toNat = 0 ∧ b.toNat = 255 ∨ a.toNat = 255 ∧ b.toNat = 0
  omega

/-- One corrupted byte goes undetected only between 0 and 255. -/
theorem fletcher_set_eq_iff {v : List UInt8} {i : Nat} (hi : i < v.length) (b : UInt8) :
    fletcher (v.set i b) = fletcher v ↔
      b = v.getD i 0 ∨ b = 0 ∧ v.getD i 0 = 255 ∨ b = 255 ∧ v.getD i 0 = 0 := by
  have hat : (v.set i b).getD i 0 = b := by
    rw [List.getD_eq_getElem?_getD, List.getElem?_set_self hi]
    rfl
  have hsame : ∀ k, k ≠ i → residue (v.set i b) k = residue v k := by
    intro k hk
    unfold residue
    rw [List.getD_eq_getElem?_getD, List.getElem?_set_ne hk.symm, ← List.getD_eq_getElem?_getD]
  rw [fletcher_eq_iff_sums List.length_set, sums_eq_iff_single hi hsame, ← toNat_congr_iff]
  unfold residue
  rw [hat]

/-- Two neighbours that change places go undetected only if they are the same number modulo 255. -/
theorem fletcher_swap_iff (front back : List UInt8) (a b : UInt8) :
    fletcher (front ++ b :: a :: back) = fletcher (front ++ a :: b :: back) ↔
      a.toNat ≡ b.toNat [MOD 255] := by
  have hlen : (front ++ b :: a :: back).length = (front ++ a :: b :: back).length := by simp
  have hj : front.length + 1 < (front ++ a :: b :: back).length := by simp
  have hagree : ∀ k, k ≠ front.length → k ≠ front.length + 1 →
      (front ++ b :: a :: back).getD k 0 = (front ++ a :: b :: back).getD k 0 := by
    intro k hfirst hsecond
    by_cases hk : k < front.length
    · rw [List.getD_append _ _ _ _ hk, List.getD_append _ _ _ _ hk]
    · obtain ⟨m, rfl⟩ : ∃ m, k = front.length + (m + 2) := ⟨k - front.length - 2, by omega⟩
      rw [List.getD_append_right _ _ _ _ (Nat.le_add_right _ _),
        List.getD_append_right _ _ _ _ (Nat.le_add_right _ _), Nat.add_sub_cancel_left]
      rfl
  have hplace : ∀ x y : UInt8, (front ++ x :: y :: back).getD front.length 0 = x := by
    intro x y
    rw [List.getD_append_right _ _ _ _ (Nat.le_refl _), Nat.sub_self]
    rfl
  have hnext : ∀ x y : UInt8, (front ++ x :: y :: back).getD (front.length + 1) 0 = y := by
    intro x y
    rw [List.getD_append_right _ _ _ _ (Nat.le_add_right _ _), Nat.add_sub_cancel_left]
    rfl
  rw [fletcher_eq_iff_two hlen (Nat.lt_succ_self _) hj hagree, diff, diff, hplace, hplace, hnext,
    hnext, Nat.modEq_iff_dvd]
  push_cast
  omega

/-! ## What the other two checksums miss -/

/-- The sum does not see the order of the values. -/
theorem add_eq_of_perm {u v : List UInt8} (hperm : u.Perm v) :
    (checksum u).add = (checksum v).add := by
  have hadd : ∀ w : List UInt8,
      (checksum w).add = w.foldl (fun s b => (s + b.toNat) % 256) 0 :=
    fun w => (List.foldl_hom Sums.add fun _ _ => rfl).symm
  have hright : RightCommutative fun (s : Nat) (b : UInt8) => (s + b.toNat) % 256 :=
    ⟨fun s a b => by omega⟩
  rw [hadd, hadd, hperm.foldl_eq]

/-- The xor does not see the order of the values. -/
theorem xor_eq_of_perm {u v : List UInt8} (hperm : u.Perm v) :
    (checksum u).xor = (checksum v).xor := by
  have hxor : ∀ w : List UInt8, (checksum w).xor = w.foldl (fun s b => s ^^^ b.toNat) 0 :=
    fun w => (List.foldl_hom Sums.xor fun _ _ => rfl).symm
  have hright : RightCommutative fun (s : Nat) (b : UInt8) => s ^^^ b.toNat :=
    ⟨fun s a b => by rw [Nat.xor_assoc, Nat.xor_comm a.toNat, ← Nat.xor_assoc]⟩
  rw [hxor, hxor, hperm.foldl_eq]

/-- **What Fletcher's checksum detects.** The closed forms of both sums, the exact conditions under
which two changed bytes, one changed byte or two exchanged neighbours go undetected, and that the
sum and the xor see no change of order at all. -/
theorem fletcher_detects :
    (∀ v : List UInt8,
      (checksum v).fletcherA = (∑ k ∈ Finset.range v.length, (v.getD k 0).toNat) % 255 ∧
      (checksum v).fletcherB =
        (∑ k ∈ Finset.range v.length, (v.length - k) * (v.getD k 0).toNat) % 255) ∧
    (∀ (u v : List UInt8) (i j : Nat), u.length = v.length → i < j → j < v.length →
      (∀ k, k ≠ i → k ≠ j → u.getD k 0 = v.getD k 0) →
      (fletcher u = fletcher v ↔
        255 ∣ diff u v i + diff u v j ∧ 255 ∣ (j - i : Int) * diff u v i)) ∧
    (∀ (v : List UInt8) (i : Nat) (b : UInt8), i < v.length →
      (fletcher (v.set i b) = fletcher v ↔
        b = v.getD i 0 ∨ b = 0 ∧ v.getD i 0 = 255 ∨ b = 255 ∧ v.getD i 0 = 0)) ∧
    (∀ (front back : List UInt8) (a b : UInt8), ¬a.toNat ≡ b.toNat [MOD 255] →
      fletcher (front ++ b :: a :: back) ≠ fletcher (front ++ a :: b :: back)) ∧
    (∀ u v : List UInt8, u.Perm v →
      (checksum u).add = (checksum v).add ∧ (checksum u).xor = (checksum v).xor) := by
  refine ⟨fun v => ⟨fletcherA_eq v, fletcherB_eq v⟩, ?_, ?_, ?_, ?_⟩
  · intro u v i j hlen hij hj hagree
    exact fletcher_eq_iff_two hlen hij hj hagree
  · intro v i b hi
    exact fletcher_set_eq_iff hi b
  · intro front back a b hab heq
    exact hab ((fletcher_swap_iff front back a b).mp heq)
  · intro u v hperm
    exact ⟨add_eq_of_perm hperm, xor_eq_of_perm hperm⟩

/-- Bytes 15 places apart can hide a difference of 17. -/
theorem fletcher_detects_seventeen :
    fletcher (17 :: List.replicate 14 0 ++ [0]) = fletcher (0 :: List.replicate 14 0 ++ [17]) ∧
    fletcher ([1, 2, 3].set 1 5) ≠ fletcher [1, 2, 3] ∧
    fletcher ([7] ++ 2 :: 1 :: [7]) ≠ fletcher ([7] ++ 1 :: 2 :: [7]) ∧
    (checksum [1, 2]).add = (checksum [2, 1]).add := by
  refine ⟨?_, ?_, ?_, ?_⟩
  · refine (fletcher_detects.2.1 _ _ 0 15 rfl (by decide) (by decide) ?_).mpr (by decide)
    intro k hfirst hlast
    match k with
    | 1 | 2 | 3 | 4 | 5 | 6 | 7 | 8 | 9 | 10 | 11 | 12 | 13 | 14 => rfl
    | k + 16 => rfl
  · intro heq
    exact absurd ((fletcher_detects.2.2.1 [1, 2, 3] 1 5 (by decide)).mp heq) (by decide)
  · exact fletcher_detects.2.2.2.1 [7] [7] 1 2 (by decide)
  · exact (fletcher_detects.2.2.2.2 [1, 2] [2, 1] (List.Perm.swap 2 1 [])).1

end OsLab.Checksums
