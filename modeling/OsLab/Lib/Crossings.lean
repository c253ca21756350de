import Mathlib.Algebra.BigOperators.Group.List.Basic
import Mathlib.Data.Finset.Card
import Mathlib.Data.Fintype.Defs
import Mathlib.Logic.Function.Basic
import Mathlib.Order.Interval.Set.Defs

/-!
# Walks over a point

A walk on a line goes up and down in labelled steps. How often it crosses a point upwards and
downwards differs by at most one, and its ends tell by how much. A table keeps the last step
of each label; where an upward step is kept, its label covers the points that it crosses.
-/

namespace OsLab.Crossings

variable {κ α : Type*} [DecidableEq κ] [AddMonoid α] [LinearOrder α]

/-- The steps that cross `h` upwards, from `x` on. -/
def ups (h : α) : α → List (κ × α) → Nat
  | _, [] => 0
  | x, e :: es => (if x ≤ h ∧ h < x + e.2 then 1 else 0) + ups h (x + e.2) es

/-- The steps that cross `h` downwards. -/
def downs (h : α) : α → List (κ × α) → Nat
  | _, [] => 0
  | x, e :: es => (if x + e.2 ≤ h ∧ h < x then 1 else 0) + downs h (x + e.2) es

/-- The steps that cross `h` upwards and whose label comes again. -/
def upsAgain (h : α) : α → List (κ × α) → Nat
  | _, [] => 0
  | x, e :: es =>
    (if (x ≤ h ∧ h < x + e.2) ∧ e.1 ∈ es.map Prod.fst then 1 else 0) + upsAgain h (x + e.2) es

/-- The last step of each label, in a table that starts as `t`. -/
def lastSteps : α → List (κ × α) → (κ → α × α) → κ → α × α
  | _, [], t => t
  | x, e :: es, t => lastSteps (x + e.2) es (Function.update t e.1 (x, x + e.2))

omit [DecidableEq κ] in
/-- A walk that ends where it started crosses as often upwards as downwards; the ends count
once each. -/
theorem ups_add (h x : α) (es : List (κ × α)) :
    ups h x es + (if x + (es.map Prod.snd).sum ≤ h then 1 else 0) =
      downs h x es + (if x ≤ h then 1 else 0) := by
  induction es generalizing x with
  | nil =>
    show 0 + (if x + 0 ≤ h then 1 else 0) = 0 + _
    rw [add_zero]
  | cons e es ih =>
    have hrest := ih (x + e.2)
    rw [List.map_cons, List.sum_cons, ← add_assoc, ups, downs]
    -- the step itself, by where the point lies between its ends
    have hstep : (if x ≤ h ∧ h < x + e.2 then 1 else 0) + (if x + e.2 ≤ h then 1 else 0) =
        (if x + e.2 ≤ h ∧ h < x then 1 else 0) + (if x ≤ h then 1 else 0) := by
      rcases le_or_gt x h with hx | hx
      · rcases le_or_gt (x + e.2) h with hend | hend
        · simp [hx, hend, not_lt_of_ge hx, not_lt_of_ge hend]
        · simp [hx, hend, not_le_of_gt hend]
      · rcases le_or_gt (x + e.2) h with hend | hend
        · simp [hx, hend, not_le_of_gt hx]
        · simp [not_le_of_gt hx, not_le_of_gt hend]
    omega

section Cover

variable [Fintype κ]

/-- The labels whose entry covers a point. -/
def covering (h : α) (t : κ → α × α) : Finset κ :=
  Finset.univ.filter fun k => (t k).1 ≤ h ∧ h < (t k).2

omit [DecidableEq κ] [AddMonoid α] in
/-- To cover a point is to start at or below it and to end above it. -/
theorem mem_covering {h : α} {t : κ → α × α} {k : κ} :
    k ∈ covering h t ↔ (t k).1 ≤ h ∧ h < (t k).2 := by
  simp [covering]

/-- The labels that no later step takes, and that cover a point already. -/
def staying (h : α) (t : κ → α × α) (es : List (κ × α)) : Finset κ :=
  (covering h t).filter fun k => k ∉ es.map Prod.fst

/-- One step: what stays of its label's entry is the step, where the label is not taken
again. -/
theorem card_staying_update (h x : α) (t : κ → α × α) (e : κ × α) (es : List (κ × α)) :
    (staying h (Function.update t e.1 (x, x + e.2)) es).card +
        (if (x ≤ h ∧ h < x + e.2) ∧ e.1 ∈ es.map Prod.fst then 1 else 0) =
      (staying h t (e :: es)).card + (if x ≤ h ∧ h < x + e.2 then 1 else 0) := by
  -- For any other label nothing changes.
  have hothers : ∀ k, k ≠ e.1 → (k ∈ staying h (Function.update t e.1 (x, x + e.2)) es ↔
      k ∈ staying h t (e :: es)) := by
    intro k hk
    rw [staying, staying, Finset.mem_filter, Finset.mem_filter, mem_covering, mem_covering,
      Function.update_of_ne hk, List.map_cons, List.mem_cons, not_or]
    exact ⟨fun hmem => ⟨hmem.1, hk, hmem.2⟩, fun hmem => ⟨hmem.1, hmem.2.2⟩⟩
  have hnew : e.1 ∈ staying h (Function.update t e.1 (x, x + e.2)) es ↔
      (x ≤ h ∧ h < x + e.2) ∧ e.1 ∉ es.map Prod.fst := by
    rw [staying, Finset.mem_filter, mem_covering, Function.update_self]
  -- Before the step its label does not stay, as this very step takes it.
  have hold : e.1 ∉ staying h t (e :: es) := by
    rw [staying, Finset.mem_filter]
    exact fun hmem => hmem.2 List.mem_cons_self
  by_cases hkept : (x ≤ h ∧ h < x + e.2) ∧ e.1 ∉ es.map Prod.fst
  · have hinsert : staying h (Function.update t e.1 (x, x + e.2)) es =
        insert e.1 (staying h t (e :: es)) := by
      ext k
      rw [Finset.mem_insert]
      by_cases hk : k = e.1
      · rw [hk]
        exact iff_of_true (hnew.mpr hkept) (.inl rfl)
      · rw [hothers k hk, or_iff_right hk]
    rw [hinsert, Finset.card_insert_of_notMem hold, if_pos hkept.1,
      if_neg fun hagain => hkept.2 hagain.2]
  · have hsame : staying h (Function.update t e.1 (x, x + e.2)) es = staying h t (e :: es) := by
      ext k
      by_cases hk : k = e.1
      · rw [hk]
        exact iff_of_false (fun hmem => hkept (hnew.mp hmem)) hold
      · exact hothers k hk
    rw [hsame]
    congr 1
    rw [not_and_not_right] at hkept
    exact if_congr ⟨And.left, fun hup => ⟨hup, hkept hup⟩⟩ rfl rfl

/-- The labels that cover a point in the end are those of upward steps that are not taken
again, and those that were there and stay. -/
theorem card_covering_lastSteps (h x : α) (es : List (κ × α)) (t : κ → α × α) :
    (covering h (lastSteps x es t)).card + upsAgain h x es =
      ups h x es + (staying h t es).card := by
  induction es generalizing x t with
  | nil =>
    have hall : staying h t ([] : List (κ × α)) = covering h t :=
      Finset.filter_true_of_mem fun k _ => List.not_mem_nil
    show (covering h t).card + 0 = 0 + _
    rw [hall, Nat.add_comm]
  | cons e es ih =>
    have hrest := ih (x + e.2) (Function.update t e.1 (x, x + e.2))
    have hstep := card_staying_update h x t e es
    rw [lastSteps, upsAgain, ups]
    omega

/-- The count over a point, for a table that covers nothing at first. -/
theorem card_covering_add (h x : α) (es : List (κ × α)) {t : κ → α × α}
    (hempty : ∀ k, ¬((t k).1 ≤ h ∧ h < (t k).2)) :
    (covering h (lastSteps x es t)).card + upsAgain h x es +
        (if x + (es.map Prod.snd).sum ≤ h then 1 else 0) =
      downs h x es + (if x ≤ h then 1 else 0) := by
  have hnone : staying h t es = ∅ := by
    apply Finset.eq_empty_of_forall_notMem
    intro k hk
    exact hempty k (mem_covering.mp (Finset.mem_filter.mp hk).1)
  have hcount := card_covering_lastSteps h x es t
  have hcross := ups_add h x es
  rw [hnone, Finset.card_empty] at hcount
  omega

end Cover

end OsLab.Crossings
