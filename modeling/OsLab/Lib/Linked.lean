import Mathlib.Algebra.BigOperators.Group.List.Basic
import Mathlib.Algebra.Group.Int.Defs
import Mathlib.Tactic.Abel

/-!
# Records that go on from one another

A list of records each of which has to fit the one before it. Where each begins at the end of the
one before, the lengths add up to the end of the last.

* **`Linked`** -- the condition, for records that follow `prev`, if there is one.
* **`linked_snoc`** -- a list that grows at its end is linked by looking at its last record only.
* **`Linked.holds`**, **`Linked.forall_mem`** -- what a linked list says of each of its records.
* **`Linked.sum_lengths`** -- the telescoping sum.
-/

namespace OsLab

section Linked

variable {α : Type*} {R S : Option α → α → Prop} {prev : Option α} {l : List α} {x : α}

/-- `R` holds of each record and the one before it; `prev` is the one before the list. -/
def Linked (R : Option α → α → Prop) : Option α → List α → Prop
  | _, [] => True
  | prev, x :: l => R prev x ∧ Linked R (some x) l

/-- The record at the end. -/
def lastOr (prev : Option α) (l : List α) : Option α := l.getLast?.or prev

@[simp] theorem lastOr_nil (prev : Option α) : lastOr prev [] = prev := Option.none_or

/-- The record at the end does not depend on what came before the list, once the list has a
record. -/
theorem lastOr_cons (prev : Option α) (x : α) (l : List α) :
    lastOr prev (x :: l) = lastOr (some x) l := by
  unfold lastOr
  rw [List.getLast?_cons]
  cases l.getLast? with
  | none => rfl
  | some y => rfl

/-- A record put at the end is the record at the end. -/
@[simp] theorem lastOr_snoc (prev : Option α) (l : List α) (x : α) :
    lastOr prev (l ++ [x]) = some x := by
  unfold lastOr
  rw [List.getLast?_concat, Option.some_or]

theorem lastOr_none (l : List α) : lastOr none l = l.getLast? := Option.or_none

/-- A record more has to fit the one at the end, and no other. -/
theorem linked_snoc : Linked R prev (l ++ [x]) ↔ Linked R prev l ∧ R (lastOr prev l) x := by
  induction l generalizing prev with
  | nil =>
    rw [lastOr_nil]
    show R prev x ∧ True ↔ True ∧ R prev x
    rw [and_true, true_and]
  | cons y l ih =>
    rw [lastOr_cons]
    show R prev y ∧ Linked R (some y) (l ++ [x]) ↔ (R prev y ∧ Linked R (some y) l) ∧ _
    rw [ih, and_assoc]

/-- Each record of a linked list fits the one in front of it, or `prev` if it is the first. -/
theorem Linked.holds {after : List α} (h : Linked R prev (l ++ x :: after)) :
    R (lastOr prev l) x := by
  induction l generalizing prev with
  | nil =>
    rw [lastOr_nil]
    exact h.1
  | cons y l ih =>
    rw [lastOr_cons]
    exact ih h.2

/-- What follows from fitting any predecessor holds of every record of the list. -/
theorem Linked.forall_mem (h : Linked R prev l) {P : α → Prop} (hP : ∀ prev x, R prev x → P x) :
    ∀ x ∈ l, P x := by
  intro x hx
  obtain ⟨before, after, rfl⟩ := List.append_of_mem hx
  exact hP _ x h.holds

/-- The lengths of records that begin where the one before ends: they add up to the end of the last
one, from the end of what came before. -/
theorem Linked.sum_lengths (h : Linked R prev l) (first last : α → Nat)
    (hR : ∀ prev x, R prev x → first x = (prev.map last).getD 0) :
    (l.map fun x => (last x : Int) - first x).sum =
      ((lastOr prev l).map last).getD 0 - (prev.map last).getD 0 := by
  induction l generalizing prev with
  | nil =>
    rw [lastOr_nil, List.map_nil, List.sum_nil]
    abel
  | cons x l ih =>
    rw [List.map_cons, List.sum_cons, ih h.2, lastOr_cons, hR prev x h.1]
    show (last x : Int) - _ + (_ - last x) = _
    abel

end Linked

end OsLab
