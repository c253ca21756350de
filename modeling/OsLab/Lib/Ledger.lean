import Mathlib.Data.List.Nodup
import Mathlib.Logic.Function.Basic
import OsLab.Lib.Grid

/-!
# Marked cells and who holds them

An allocator keeps two accounts of the same cells: the grid, where a cell in use carries the mark of
its owner, and for each owner the list of the cells it holds. A ledger is a grid whose marks agree
with the lists; taking free cells for an owner that holds none and releasing all an owner holds keep
it.

* **`Ledger`** -- the invariant.
* **`existsUnique_holder`**, **`disjoint`** -- what it means for the cells: nothing is held twice,
  nothing in use is held by nobody.
* **`take`**, **`release`** -- the two steps of an allocator, with their effect on the number of
  free cells in `count_take` and `count_release`.
-/

namespace OsLab

/-- A cell carries the mark of an owner exactly if that owner holds it. -/
structure Ledger {ω : Type*} (m : List (List (Option ω))) (held : ω → List (Nat × Nat)) :
    Prop where
  nodup : ∀ o, (held o).Nodup
  mark_iff : ∀ o p, p ∈ held o ↔ Grid.get? m p = some (some o)

namespace Ledger

variable {ω : Type*} {m : List (List (Option ω))} {held : ω → List (Nat × Nat)} {o o' : ω}
  {p : Nat × Nat} {ps : List (Nat × Nat)}

/-- A used cell is held by exactly one owner: its mark names an owner, and only that one lists
it. -/
theorem existsUnique_holder (h : Ledger m held) (hp : Grid.get? m p = some (some o)) :
    ∃! o', p ∈ held o' := by
  refine ⟨o, (h.mark_iff o p).mpr hp, fun o' hmem => ?_⟩
  have hmark := (h.mark_iff o' p).mp hmem
  exact Option.some.inj (Option.some.inj (hmark.symm.trans hp))

/-- A cell without a mark is on nobody's list. -/
theorem not_mem_of_free (h : Ledger m held) (hp : Grid.get? m p = some none) : p ∉ held o := by
  intro hmem
  have hmark := (h.mark_iff o p).mp hmem
  rw [hp] at hmark
  cases hmark

/-- Two owners hold no cell together, since a cell carries one mark. -/
theorem disjoint (h : Ledger m held) (hne : o ≠ o') (hp : p ∈ held o) : p ∉ held o' := by
  intro hp'
  have hmark := (h.mark_iff o p).mp hp
  have hmark' := (h.mark_iff o' p).mp hp'
  exact hne (Option.some.inj (Option.some.inj (hmark.symm.trans hmark')))

/-- A grid without marks, and nobody holding anything: the ledger that an allocator starts with. -/
theorem empty (hm : ∀ p o, Grid.get? m p ≠ some (some o)) : Ledger m fun _ : ω => [] where
  nodup _ := List.nodup_nil
  mark_iff o p := by
    simp [hm p o]

/-- Taking free cells takes as many from the count of the free ones. -/
theorem count_take (hps : ps.Nodup) (hfree : ∀ p ∈ ps, Grid.get? m p = some none) (o : ω) :
    Grid.count (·.isNone) (Grid.putAll m ps (some o)) + ps.length = Grid.count (·.isNone) m :=
  Grid.count_putAll_add hps (fun p hp => ⟨none, hfree p hp, rfl⟩) rfl

/-- Releasing gives the free cells back, as many as the owner held. -/
theorem count_release (h : Ledger m held) (o : ω) :
    Grid.count (·.isNone) (Grid.putAll m (held o) none) =
      Grid.count (·.isNone) m + (held o).length :=
  Grid.count_putAll_sub (h.nodup o) (fun p hp => ⟨some o, (h.mark_iff o p).mp hp, rfl⟩) rfl

variable [DecidableEq ω]

/-- An owner that holds nothing takes free cells: they are marked, and they are its list. -/
theorem take (h : Ledger m held) (hnone : held o = []) (hps : ps.Nodup)
    (hfree : ∀ p ∈ ps, Grid.get? m p = some none) :
    Ledger (Grid.putAll m ps (some o)) (Function.update held o ps) := by
  constructor
  · intro o'
    by_cases ho : o' = o
    · rw [ho, Function.update_self]
      exact hps
    · rw [Function.update_of_ne ho]
      exact h.nodup o'
  · intro o' p
    rw [Grid.get?_putAll fun q hq => ⟨none, hfree q hq⟩]
    by_cases ho : o' = o
    · subst ho
      rw [Function.update_self]
      by_cases hp : p ∈ ps
      · simp [hp]
      · rw [if_neg hp, ← h.mark_iff, hnone]
        simp [hp]
    · rw [Function.update_of_ne ho]
      by_cases hp : p ∈ ps
      · have hnot := h.not_mem_of_free (o := o') (hfree p hp)
        simp [hp, hnot, Ne.symm ho]
      · rw [if_neg hp]
        exact h.mark_iff o' p

/-- An owner gives back all it holds: the marks go and its list is empty. -/
theorem release (h : Ledger m held) (o : ω) :
    Ledger (Grid.putAll m (held o) none) (Function.update held o []) := by
  constructor
  · intro o'
    by_cases ho : o' = o
    · rw [ho, Function.update_self]
      exact List.nodup_nil
    · rw [Function.update_of_ne ho]
      exact h.nodup o'
  · intro o' p
    rw [Grid.get?_putAll fun q hq => ⟨some o, (h.mark_iff o q).mp hq⟩]
    by_cases ho : o' = o
    · subst ho
      rw [Function.update_self]
      by_cases hp : p ∈ held o'
      · simp [hp]
      · rw [if_neg hp, ← h.mark_iff]
        simp [hp]
    · rw [Function.update_of_ne ho]
      by_cases hp : p ∈ held o
      · have hnot := h.disjoint (Ne.symm ho) hp
        simp [hp, hnot]
      · rw [if_neg hp]
        exact h.mark_iff o' p

/-- The same for a single cell, as an allocator of inodes takes it. -/
theorem take_one (h : Ledger m held) (hnone : held o = []) (hfree : Grid.get? m p = some none) :
    Ledger (Grid.put m p (some o)) (Function.update held o [p]) := by
  have hall : ∀ q ∈ [p], Grid.get? m q = some none := by
    intro q hq
    rw [List.mem_singleton.mp hq]
    exact hfree
  exact h.take hnone (List.nodup_singleton p) hall

/-- The same for a single cell, as an allocator of inodes releases it. -/
theorem release_one (h : Ledger m held) (hp : held o = [p]) :
    Ledger (Grid.put m p none) (Function.update held o []) := by
  have hrelease := h.release o
  rw [hp] at hrelease
  exact hrelease

end Ledger

end OsLab
