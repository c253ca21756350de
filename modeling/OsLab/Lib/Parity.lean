import Mathlib.Data.List.Basic

/-!
# Parity groups

The parity of a group of words is the xor of its members. When some members are overwritten, the new
parity can be had in two ways: from the old parity and the overwritten members (subtractively), or
from the members that stay (additively).

* **`parity`** -- the xor over a group, given by a list of members and the word of each.
* **`parity_additive`**, **`parity_subtractive`** -- the two ways to the new parity, which agree for
  every choice of the members that are overwritten.
* **`recover`** -- a lost word is the parity of the parity word and the words that are left.
-/

namespace OsLab.Parity

variable {ι : Type*} {w : Nat}

/-- The xor of the words `f` gives to the members of a group. -/
def parity (f : ι → BitVec w) (group : List ι) : BitVec w :=
  (group.map f).foldr (· ^^^ ·) 0#w

@[simp] theorem parity_nil (f : ι → BitVec w) : parity f [] = 0#w := rfl

@[simp] theorem parity_cons (f : ι → BitVec w) (i : ι) (group : List ι) :
    parity f (i :: group) = f i ^^^ parity f group := rfl

/-- The parity only depends on the words of the members, so writes outside the group leave it. -/
theorem parity_congr {f g : ι → BitVec w} {group : List ι} (h : ∀ i ∈ group, f i = g i) :
    parity f group = parity g group := by
  unfold parity
  rw [List.map_congr_left h]

/-- Words that are all 0 have the parity 0; a new array starts like this. -/
theorem parity_zero {f : ι → BitVec w} {group : List ι} (h : ∀ i ∈ group, f i = 0#w) :
    parity f group = 0#w := by
  induction group with
  | nil => rfl
  | cons i group ih =>
    rw [List.forall_mem_cons] at h
    rw [parity_cons, h.1, ih h.2, BitVec.xor_zero]

/-- A group splits into the members that satisfy `p` and the others, and its parity into theirs. -/
theorem parity_filter (f : ι → BitVec w) (p : ι → Bool) (group : List ι) :
    parity f group = parity f (group.filter p) ^^^ parity f (group.filter (!p ·)) := by
  induction group with
  | nil => simp
  | cons i group ih =>
    cases hp : p i with
    | true => simp [hp, ih, BitVec.xor_assoc]
    | false =>
      simp only [parity_cons, List.filter_cons, hp, Bool.not_false, if_true, Bool.false_eq_true,
        if_false, ih]
      rw [← BitVec.xor_assoc, BitVec.xor_comm (f i), BitVec.xor_assoc]

section Update

variable {f g : ι → BitVec w} {p : ι → Bool} {group : List ι}

/-- New parity from the members that stay and the new words of the others. What the overwritten
members held does not matter. -/
theorem parity_additive (hstay : ∀ i ∈ group, p i = false → g i = f i) :
    parity g group = parity f (group.filter (!p ·)) ^^^ parity g (group.filter p) := by
  rw [parity_filter g p, BitVec.xor_comm]
  congr 1
  apply parity_congr
  intro i hi
  rw [List.mem_filter, Bool.not_eq_true'] at hi
  exact hstay i hi.1 hi.2

/-- New parity from the old parity and the old and new words of the overwritten members. The members
that stay need not be read. -/
theorem parity_subtractive (hstay : ∀ i ∈ group, p i = false → g i = f i) :
    parity g group =
      parity f group ^^^ parity f (group.filter p) ^^^ parity g (group.filter p) := by
  rw [parity_additive hstay, parity_filter f p group]
  rw [BitVec.xor_comm (parity f (group.filter p)), BitVec.xor_assoc (parity f _) (parity f _)]
  simp

end Update

section Members

variable [DecidableEq ι] {f g : ι → BitVec w} {group : List ι} {i : ι}

/-- A member can be taken out, wherever it stands in the group. -/
theorem parity_erase (f : ι → BitVec w) (hi : i ∈ group) :
    parity f group = f i ^^^ parity f (group.erase i) := by
  induction group with
  | nil => cases hi
  | cons j group ih =>
    by_cases hji : j = i
    · rw [hji, List.erase_cons_head, parity_cons]
    · have hmem : i ∈ group := (List.mem_cons.mp hi).resolve_left (Ne.symm hji)
      rw [List.erase_cons_tail (by simpa using hji), parity_cons, parity_cons, ih hmem,
        ← BitVec.xor_assoc, BitVec.xor_comm (f j), BitVec.xor_assoc]

/-- A lost word is the parity of the group with the words that are left. -/
theorem recover (f : ι → BitVec w) (hi : i ∈ group) :
    f i = parity f group ^^^ parity f (group.erase i) := by
  rw [parity_erase f hi, BitVec.xor_assoc, BitVec.xor_self, BitVec.xor_zero]

/-- Groups that agree in their parity and in all members but one agree in that one too, so a lost
word is determined by what is left. -/
theorem eq_of_parity_eq (hnodup : group.Nodup) (hi : i ∈ group)
    (hparity : parity f group = parity g group) (hrest : ∀ j ∈ group, j ≠ i → f j = g j) :
    f i = g i := by
  have hothers : parity f (group.erase i) = parity g (group.erase i) := by
    apply parity_congr
    intro j hj
    rw [hnodup.mem_erase_iff] at hj
    exact hrest j hj.2 hj.1
  rw [recover f hi, recover g hi, hparity, hothers]

end Members

end OsLab.Parity
