import Mathlib.Data.List.Basic

/-!
# Runs of equal elements

`runs x` are the maximal runs of `x` with their lengths, in order, and `expand` writes runs out
again. `expand_runs` says that nothing is lost, and `expand_dropLast_ne` that no run is superfluous.
-/

namespace OsLab.RunLength

variable {α : Type*} [DecidableEq α]

/-- The runs of `x` when `n` times `a` stand before it. -/
def runsFrom (a : α) (n : Nat) : List α → List (Nat × α)
  | [] => [(n, a)]
  | b :: x => if a = b then runsFrom a (n + 1) x else (n, a) :: runsFrom b 1 x

def runs : List α → List (Nat × α)
  | [] => []
  | a :: x => runsFrom a 1 x

def expand (rs : List (Nat × α)) : List α := rs.flatMap fun r => List.replicate r.1 r.2

/-- There is always a run at the end, the one that is being counted. -/
theorem runsFrom_ne_nil (a : α) (n : Nat) (x : List α) : runsFrom a n x ≠ [] := by
  induction x generalizing n with
  | nil => simp [runsFrom]
  | cons b x ih =>
    unfold runsFrom
    split
    · exact ih (n + 1)
    · simp

/-- Written out, the runs give the counted elements and then the list. By induction on the list. -/
theorem expand_runsFrom (a : α) (n : Nat) (x : List α) :
    expand (runsFrom a n x) = List.replicate n a ++ x := by
  induction x generalizing a n with
  | nil => simp [runsFrom, expand]
  | cons b x ih =>
    unfold runsFrom
    split
    · subst_vars
      rw [ih, List.replicate_succ']
      simp
    · show List.replicate n a ++ expand (runsFrom b 1 x) = _
      rw [ih]
      rfl

/-- The runs of a list written out are the list. -/
theorem expand_runs (x : List α) : expand (runs x) = x := by
  cases x with
  | nil => rfl
  | cons a x => exact expand_runsFrom a 1 x

/-- Only the empty list has no runs. -/
theorem runs_eq_nil {x : List α} : runs x = [] ↔ x = [] := by
  cases x with
  | nil => simp [runs]
  | cons a x => simp [runs, runsFrom_ne_nil]

/-- No run is empty, if the count does not start with nothing. -/
theorem pos_of_mem_runsFrom {a : α} {n : Nat} (hn : 0 < n) {x : List α} {r : Nat × α}
    (hr : r ∈ runsFrom a n x) : 0 < r.1 := by
  induction x generalizing a n with
  | nil =>
    obtain rfl : r = (n, a) := by simpa [runsFrom] using hr
    exact hn
  | cons b x ih =>
    unfold runsFrom at hr
    split at hr
    · exact ih (Nat.succ_pos n) hr
    · rcases List.mem_cons.mp hr with rfl | hr
      · exact hn
      · exact ih Nat.one_pos hr

/-- No run of a list is empty. -/
theorem pos_of_mem_runs {x : List α} {r : Nat × α} (hr : r ∈ runs x) : 0 < r.1 := by
  cases x with
  | nil => cases hr
  | cons a x => exact pos_of_mem_runsFrom Nat.one_pos hr

/-- Without the last run something is missing, since that run is not empty. -/
theorem expand_dropLast_ne {x : List α} (hx : x ≠ []) : expand (runs x).dropLast ≠ x := by
  intro heq
  have hne : runs x ≠ [] := fun hnil => hx (runs_eq_nil.mp hnil)
  have hpos := pos_of_mem_runs (List.getLast_mem hne)
  have hlen : (expand (runs x)).length =
      (expand (runs x).dropLast).length + ((runs x).getLast hne).1 := by
    conv_lhs => rw [← List.dropLast_append_getLast hne]
    simp [expand]
  rw [expand_runs, heq] at hlen
  omega

end OsLab.RunLength
