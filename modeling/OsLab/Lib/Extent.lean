import Mathlib.Algebra.Order.Group.Int
import Mathlib.Data.Int.Interval
import Mathlib.Data.List.Sort
import Mathlib.Data.Set.Lattice
import Mathlib.Order.Bounds.Basic

/-!
# The extent of a set

How far the least and the greatest element of a set lie apart, and two ways to find them: by running
along a list, and by sorting it.

* **`Ends`**, **`HasExtent`** -- the least and the greatest element, and the distance between them.
  Both are unique where they exist.
* **`ends_iff`**, **`between_biUnion`** -- elements between others do not count, so a set made of
  pieces has the ends of the ends of its pieces.
* **`foldl_stretch`** -- a run that stretches two ends over a list finds those of the list, if it
  starts outside of it.
* **`ends_mergeSort`** -- so does sorting.
-/

namespace OsLab.Extent

/-- `lo` and `hi` are the ends of the set. -/
structure Ends {α : Type*} [LinearOrder α] (as : Set α) (lo hi : α) : Prop where
  least : IsLeast as lo
  greatest : IsGreatest as hi

/-- The ends lie `n` apart. -/
def HasExtent {α : Type*} [LinearOrder α] [Sub α] (as : Set α) (n : α) : Prop :=
  ∃ lo hi, Ends as lo hi ∧ n = hi - lo

section Ends

variable {α : Type*} [LinearOrder α] {as bs : Set α} {lo hi a b : α}

/-- A set has one least and one greatest element. -/
theorem Ends.unique (h : Ends as lo hi) (h' : Ends as a b) : lo = a ∧ hi = b :=
  ⟨h.least.unique h'.least, h.greatest.unique h'.greatest⟩

/-- A set has one extent, whatever way its ends were found. -/
theorem HasExtent.unique [Sub α] {m n : α} (h : HasExtent as m) (h' : HasExtent as n) : m = n := by
  obtain ⟨lo, hi, hends, rfl⟩ := h
  obtain ⟨lo', hi', hends', rfl⟩ := h'
  obtain ⟨rfl, rfl⟩ := hends.unique hends'
  rfl

/-- A new element can only move an end to itself. -/
theorem Ends.insert (h : Ends as lo hi) (a : α) : Ends (insert a as) (min a lo) (max a hi) :=
  ⟨h.least.insert a, h.greatest.insert a⟩

/-- Elements between others do not count: a larger set whose new elements all lie between old ones
has the same ends. -/
theorem ends_iff (hsub : as ⊆ bs) (hbetween : ∀ b ∈ bs, (∃ a ∈ as, a ≤ b) ∧ ∃ a ∈ as, b ≤ a) :
    Ends as lo hi ↔ Ends bs lo hi := by
  constructor
  · rintro ⟨⟨hlo, hleast⟩, ⟨hhi, hgreatest⟩⟩
    refine ⟨⟨hsub hlo, fun b hb => ?_⟩, ⟨hsub hhi, fun b hb => ?_⟩⟩
    · obtain ⟨a, ha, hle⟩ := (hbetween b hb).1
      exact (hleast ha).trans hle
    · obtain ⟨a, ha, hle⟩ := (hbetween b hb).2
      exact hle.trans (hgreatest ha)
  · rintro ⟨⟨hlo, hleast⟩, ⟨hhi, hgreatest⟩⟩
    obtain ⟨a, ha, hle⟩ := (hbetween lo hlo).1
    obtain ⟨b, hb, hge⟩ := (hbetween hi hhi).2
    obtain rfl := le_antisymm hle (hleast (hsub ha))
    obtain rfl := le_antisymm hge (hgreatest (hsub hb))
    exact ⟨⟨ha, fun x hx => hleast (hsub hx)⟩, ⟨hb, fun x hx => hgreatest (hsub hx)⟩⟩

/-- The ends of the pieces stand for the pieces: every element of the union lies between two of
them. -/
theorem between_biUnion {ι : Type*} {is : Set ι} {piece ends : ι → Set α}
    (hends : ∀ i ∈ is, ends i ⊆ piece i)
    (hbetween : ∀ i ∈ is, ∀ b ∈ piece i, (∃ a ∈ ends i, a ≤ b) ∧ ∃ a ∈ ends i, b ≤ a) :
    Ends (⋃ i ∈ is, ends i) lo hi ↔ Ends (⋃ i ∈ is, piece i) lo hi := by
  apply ends_iff
  · exact Set.iUnion₂_mono hends
  · intro b hb
    obtain ⟨i, hi, hb⟩ := Set.mem_iUnion₂.mp hb
    obtain ⟨⟨a, ha, hle⟩, c, hc, hge⟩ := hbetween i hi b hb
    exact ⟨⟨a, Set.mem_iUnion₂.mpr ⟨i, hi, ha⟩, hle⟩, c, Set.mem_iUnion₂.mpr ⟨i, hi, hc⟩, hge⟩

/-- A list without repetition fits between its ends: there is room for at most one more element than
the extent. -/
theorem HasExtent.length_le {xs : List Int} {n : Int} (hnodup : xs.Nodup)
    (h : HasExtent {x | x ∈ xs} n) : (xs.length : Int) ≤ n + 1 := by
  obtain ⟨lo, hi, ⟨⟨_, hleast⟩, ⟨hmem, hgreatest⟩⟩, rfl⟩ := h
  have hsub : xs.toFinset ⊆ Finset.Icc lo hi := by
    intro x hx
    have hx := List.mem_toFinset.mp hx
    exact Finset.mem_Icc.mpr ⟨hleast hx, hgreatest hx⟩
  have hcard := Finset.card_le_card hsub
  rw [List.toFinset_card_of_nodup hnodup, Int.card_Icc] at hcard
  have hle : lo ≤ hi := hleast hmem
  omega

end Ends

/-! ## Running along a list -/

section Running

variable {α : Type*} [LinearOrder α]

/-- The least and the greatest so far, after `a`. -/
def stretch (ends : α × α) (a : α) : α × α :=
  (if a < ends.1 then a else ends.1, if a > ends.2 then a else ends.2)

/-- Stretching compares with `if`, which amounts to the minimum and the maximum. -/
theorem stretch_eq (ends : α × α) (a : α) : stretch ends a = (min a ends.1, max a ends.2) := by
  unfold stretch
  congr 1
  · rcases lt_or_ge a ends.1 with h | h
    · rw [if_pos h, min_eq_left h.le]
    · rw [if_neg (not_lt.mpr h), min_eq_right h]
  · rcases lt_or_ge ends.2 a with h | h
    · rw [if_pos h, max_eq_left h.le]
    · rw [if_neg (not_lt.mpr h), max_eq_right h]

/-- A run keeps the ends of what it started with and what it has passed. By induction on the
list. -/
theorem foldl_stretch_ends {as : Set α} {ends : α × α} (h : Ends as ends.1 ends.2) (xs : List α) :
    Ends ({x | x ∈ xs} ∪ as) (xs.foldl stretch ends).1 (xs.foldl stretch ends).2 := by
  induction xs generalizing as ends with
  | nil => simpa using h
  | cons x xs ih =>
    have hx : Ends (insert x as) (stretch ends x).1 (stretch ends x).2 := by
      rw [stretch_eq]
      exact h.insert x
    have hset : ({y | y ∈ x :: xs} ∪ as : Set α) = {y | y ∈ xs} ∪ insert x as := by
      ext y
      simp only [Set.mem_union, Set.mem_ofPred_eq, List.mem_cons, Set.mem_insert_iff]
      tauto
    rw [hset]
    exact ih hx

/-- Started outside the list, above all of its elements and below all of them, a run finds the ends
of the list itself. -/
theorem foldl_stretch {xs : List α} {ends : α × α} (hne : xs ≠ [])
    (hout : ∀ x ∈ xs, x ≤ ends.1 ∧ ends.2 ≤ x) :
    Ends {x | x ∈ xs} (xs.foldl stretch ends).1 (xs.foldl stretch ends).2 := by
  cases xs with
  | nil => exact absurd rfl hne
  | cons x xs =>
    obtain ⟨hlo, hhi⟩ := hout x (List.mem_cons_self ..)
    have hfirst : stretch ends x = (x, x) := by
      rw [stretch_eq, min_eq_left hlo, max_eq_left hhi]
    have hrun := @foldl_stretch_ends α _ {x} (x, x) ⟨isLeast_singleton, isGreatest_singleton⟩ xs
    rw [List.foldl_cons, hfirst]
    have hset : ({y | y ∈ x :: xs} : Set α) = {y | y ∈ xs} ∪ {x} := by
      ext y
      simp only [Set.mem_ofPred_eq, List.mem_cons, Set.mem_union, Set.mem_singleton_iff]
      tauto
    rw [hset]
    exact hrun

/-! ## Sorting -/

/-- The ends of a list are the first and the last element once it is sorted, whatever the order it
came in. -/
theorem ends_mergeSort {xs ys : List α} (hne : xs ≠ []) (hys : xs.mergeSort (· ≤ ·) = ys) :
    ∃ lo hi, ys[0]? = some lo ∧ ys[ys.length - 1]? = some hi ∧ Ends {x | x ∈ xs} lo hi := by
  have hsorted := List.pairwise_mergeSort' (· ≤ ·) xs
  have hperm := List.mergeSort_perm xs (· ≤ ·)
  rw [hys] at hsorted hperm
  have hlength : 0 < ys.length := by
    rw [hperm.length_eq]
    exact List.length_pos_of_ne_nil hne
  have hle : ∀ (i j : Nat) (hi : i < ys.length) (hj : j < ys.length), i ≤ j → ys[i] ≤ ys[j] := by
    intro i j hi hj hij
    rcases Nat.lt_or_eq_of_le hij with hlt | rfl
    · exact List.pairwise_iff_getElem.mp hsorted i j hi hj hlt
    · exact le_rfl
  have hlast : ys.length - 1 < ys.length := by omega
  refine ⟨ys[0], ys[ys.length - 1], List.getElem?_eq_getElem hlength,
    List.getElem?_eq_getElem hlast, ⟨hperm.mem_iff.mp (List.getElem_mem hlength), ?_⟩,
    ⟨hperm.mem_iff.mp (List.getElem_mem hlast), ?_⟩⟩
  · intro x hx
    obtain ⟨k, hk, rfl⟩ := List.getElem_of_mem (hperm.mem_iff.mpr hx)
    exact hle 0 k hlength hk (Nat.zero_le k)
  · intro x hx
    obtain ⟨k, hk, rfl⟩ := List.getElem_of_mem (hperm.mem_iff.mpr hx)
    exact hle k _ hk hlast (by omega)

end Running

end OsLab.Extent
