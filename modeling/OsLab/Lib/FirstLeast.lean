import Mathlib.Data.List.Basic
import Mathlib.Data.Prod.Lex

/-!
# The first least element

A scan that keeps the first of the best elements it has seen. Elements that do not qualify are
passed over; of those that do, the scan ends with one whose key is least, and the first of these.

* **`FirstLeast`** -- the element that such a scan ends with, said of the whole list and not of the
  scan.
* **`skip`**, **`keep`**, **`replace`**, **`first`** -- the four things that can happen when the
  next element comes, one rule each. A loop is verified by picking the rule for each of its
  branches.
* **`lex`** -- a scan by two keys is a scan by the second among the elements that are least in the
  first.
-/

namespace OsLab

variable {α : Type*} {β : Type*} [LinearOrder β]

/-- Of the elements of `xs` that satisfy `P`, `x` is the first whose key is least. -/
def FirstLeast (key : α → β) (P : α → Prop) (xs : List α) (x : α) : Prop :=
  ∃ before after, xs = before ++ x :: after ∧ P x ∧ (∀ y ∈ before, P y → key x < key y) ∧
    ∀ y ∈ after, P y → key x ≤ key y

namespace FirstLeast

variable {key : α → β} {P : α → Prop} {xs : List α} {x y : α}

/-- The element that the scan ends with is one of the list. -/
theorem mem (h : FirstLeast key P xs x) : x ∈ xs := by
  obtain ⟨before, after, rfl, _⟩ := h
  exact List.mem_append_right _ List.mem_cons_self

/-- No element that qualifies has a smaller key. -/
theorem le (h : FirstLeast key P xs x) (hy : y ∈ xs) (hP : P y) : key x ≤ key y := by
  obtain ⟨before, after, rfl, _, hbefore, hafter⟩ := h
  rcases List.mem_append.mp hy with hy | hy
  · exact (hbefore y hy hP).le
  rcases List.mem_cons.mp hy with rfl | hy
  · exact le_rfl
  · exact hafter y hy hP

/-- The next element does not qualify, so the scan keeps what it has. -/
theorem skip (h : FirstLeast key P xs x) (hy : ¬ P y) : FirstLeast key P (xs ++ [y]) x := by
  obtain ⟨before, after, rfl, hx, hbefore, hafter⟩ := h
  refine ⟨before, after ++ [y], by simp, hx, hbefore, ?_⟩
  rw [List.forall_mem_append]
  exact ⟨hafter, fun z hz hP => absurd (List.mem_singleton.mp hz ▸ hP) hy⟩

/-- The next element is not better: it has the same key or a larger one, and the earlier element
stays. -/
theorem keep (h : FirstLeast key P xs x) (hle : key x ≤ key y) :
    FirstLeast key P (xs ++ [y]) x := by
  obtain ⟨before, after, rfl, hx, hbefore, hafter⟩ := h
  refine ⟨before, after ++ [y], by simp, hx, hbefore, ?_⟩
  rw [List.forall_mem_append]
  refine ⟨hafter, fun z hz _ => ?_⟩
  rw [List.mem_singleton.mp hz]
  exact hle

/-- The next element qualifies and is strictly better, so that it takes the place of the one that
was kept. -/
theorem replace (h : FirstLeast key P xs x) (hy : P y) (hlt : key y < key x) :
    FirstLeast key P (xs ++ [y]) y :=
  ⟨xs, [], rfl, hy, fun _ hz hP => hlt.trans_le (h.le hz hP), fun _ hz => by cases hz⟩

/-- The next element is the first that qualifies, and is kept without a comparison. -/
theorem first (hxs : ∀ z ∈ xs, ¬ P z) (hy : P y) : FirstLeast key P (xs ++ [y]) y :=
  ⟨xs, [], rfl, hy, fun z hz hP => absurd hP (hxs z hz), fun _ hz => by cases hz⟩

/-- To be first and least in a list with respect to two keys is to be so, in the second, among the
elements that are least in the first. -/
theorem lex {γ : Type*} [LinearOrder γ] {key' : α → γ} {near : β} [DecidablePred P]
    (hnear : ∀ z ∈ xs, P z → near ≤ key z)
    (h : FirstLeast key' P (xs.filter fun z => P z ∧ key z = near) x) :
    FirstLeast (fun z => toLex (key z, key' z)) P xs x := by
  have hmem := h.mem
  obtain ⟨before, after, hfilter, hx, hbefore, hafter⟩ := h
  obtain ⟨pre, rest, rfl, hpre, hrest⟩ := List.filter_eq_append_iff.mp hfilter
  obtain ⟨skipped, post, rfl, hskipped, hnearest, hpost⟩ := List.filter_eq_cons_iff.mp hrest
  rw [decide_eq_true_eq] at hnearest
  have hkey : ∀ z ∈ pre ++ (skipped ++ x :: post), P z → key z ≠ near → near < key z :=
    fun z hz hP hne => lt_of_le_of_ne (hnear z hz hP) (Ne.symm hne)
  refine ⟨pre ++ skipped, post, by simp, hx, ?_, ?_⟩
  · intro z hz hP
    rw [Prod.Lex.toLex_lt_toLex, hnearest.2]
    by_cases hsame : key z = near
    · -- an element as near as the chosen one has been compared before
      have hin : z ∈ before := by
        rcases List.mem_append.mp hz with hz | hz
        · rw [← hpre]
          exact List.mem_filter.mpr ⟨hz, decide_eq_true ⟨hP, hsame⟩⟩
        · exact absurd (decide_eq_true ⟨hP, hsame⟩) (hskipped z hz)
      exact .inr ⟨hsame.symm, hbefore z hin hP⟩
    · refine .inl (hkey z ?_ hP hsame)
      rw [← List.append_assoc]
      exact List.mem_append_left _ hz
  · intro z hz hP
    rw [Prod.Lex.toLex_le_toLex, hnearest.2]
    by_cases hsame : key z = near
    · have hin : z ∈ after := by
        rw [← hpost]
        exact List.mem_filter.mpr ⟨hz, decide_eq_true ⟨hP, hsame⟩⟩
      exact .inr ⟨hsame.symm, hafter z hin hP⟩
    · refine .inl (hkey z ?_ hP hsame)
      exact List.mem_append_right _ (List.mem_append_right _ (List.mem_cons_of_mem _ hz))

end FirstLeast

end OsLab
