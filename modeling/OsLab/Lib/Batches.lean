import Mathlib.Data.List.Nodup
import Mathlib.Data.List.Perm.Subperm

/-!
# Batches

The numbers fall into batches of `w`. A list of different numbers, none in a later batch than its
own place, goes through the batches one after the other. There is no room for disorder: the places
of the first `b` batches can only be taken by numbers of these batches, and there are as many of the
ones as of the others, so nothing of a later batch can come before an earlier batch is complete.

* **`Within`** -- no entry lies in a later batch than its place. The condition is kept step by step,
  `Within.append_singleton`.
* **`Within.complete`**, **`Within.sorted`** -- what it amounts to for the whole list.
-/

namespace OsLab.Batches

variable {w k i j : Nat} {xs : List Nat}

/-- No entry lies in a later batch than its place. -/
def Within (w : Nat) (xs : List Nat) : Prop := ∀ k i, xs[k]? = some i → i / w ≤ k / w

/-- A list that has not begun breaks no condition on its places. -/
theorem within_nil : Within w [] := by
  intro k i h
  simp at h

/-- A new last entry has to respect its own place only, which is the length of the list so far. -/
theorem Within.append_singleton (h : Within w xs) (hi : i / w ≤ xs.length / w) :
    Within w (xs ++ [i]) := by
  intro k j hj
  by_cases hold : k < xs.length
  · rw [List.getElem?_append_left hold] at hj
    exact h k j hj
  · obtain ⟨hlt, _⟩ := List.getElem?_eq_some_iff.mp hj
    rw [List.length_append, List.length_singleton] at hlt
    -- the place behind the last
    have hk : k = xs.length := by omega
    rw [hk, List.getElem?_concat_length] at hj
    rw [← Option.some.inj hj, hk]
    exact hi

/-- The places of the first `b` batches hold all their numbers: there are as many of the one as of
the other, and different numbers take different places. -/
theorem Within.mem_take (h : Within w xs) (hnodup : xs.Nodup) (hw : 0 < w) {b : Nat}
    (hlength : w * b ≤ xs.length) (hj : j < w * b) : j ∈ xs.take (w * b) := by
  have hsubset : xs.take (w * b) ⊆ List.range (w * b) := by
    intro i hi
    obtain ⟨k, hk⟩ := List.mem_iff_getElem?.mp hi
    obtain ⟨hlt, _⟩ := List.getElem?_eq_some_iff.mp hk
    rw [List.length_take] at hlt
    rw [List.getElem?_take, if_pos (by omega)] at hk
    have hplace : k / w < b := (Nat.div_lt_iff_lt_mul hw).mpr (by rw [Nat.mul_comm]; omega)
    have hbatch : i / w < b := Nat.lt_of_le_of_lt (h k i hk) hplace
    rw [Nat.div_lt_iff_lt_mul hw, Nat.mul_comm] at hbatch
    exact List.mem_range.mpr hbatch
  have hfront : (xs.take (w * b)).Nodup := hnodup.sublist (List.take_sublist _ _)
  have hperm : (xs.take (w * b)).Perm (List.range (w * b)) := by
    refine (List.subperm_of_subset hfront hsubset).perm_of_length_le ?_
    rw [List.length_range, List.length_take]
    omega
  exact hperm.mem_iff.mpr (List.mem_range.mpr hj)

/-- Every number of an earlier batch stands in front: when a number of batch `b` is chosen, the
batches before it have been taken whole. -/
theorem Within.complete (h : Within w xs) (hnodup : xs.Nodup) (hw : 0 < w)
    (hi : xs[k]? = some i) (hj : j / w < i / w) : j ∈ xs.take k := by
  obtain ⟨hlt, _⟩ := List.getElem?_eq_some_iff.mp hi
  have hstart : w * (i / w) ≤ k :=
    Nat.le_trans (Nat.mul_le_mul_left w (h k i hi)) (Nat.mul_div_le k w)
  have hbelow : j < w * (i / w) := by
    rw [Nat.mul_comm]
    exact (Nat.div_lt_iff_lt_mul hw).mp hj
  have hmem := h.mem_take hnodup hw (by omega) hbelow
  exact (List.take_subset_take_left xs hstart) hmem

/-- The batches come in order: whoever stands further back is in the same batch or in a later
one. -/
theorem Within.sorted (h : Within w xs) (hnodup : xs.Nodup) (hw : 0 < w) :
    (xs.map (· / w)).Pairwise (· ≤ ·) := by
  rw [List.pairwise_iff_getElem]
  intro k l hk hl hlt
  rw [List.length_map] at hk hl
  rw [List.getElem_map, List.getElem_map]
  by_contra hgt
  -- the later entry would stand in front of the earlier one as well
  have hfront : xs[l] ∈ xs.take k :=
    h.complete hnodup hw (List.getElem?_eq_getElem hk) (by omega)
  obtain ⟨m, hm⟩ := List.mem_iff_getElem?.mp hfront
  obtain ⟨hmlt, _⟩ := List.getElem?_eq_some_iff.mp hm
  rw [List.length_take] at hmlt
  rw [List.getElem?_take, if_pos (by omega)] at hm
  obtain ⟨hm', heq⟩ := List.getElem?_eq_some_iff.mp hm
  have hsame : m = l := (List.Nodup.getElem_inj_iff hnodup).mp heq
  omega

end OsLab.Batches
