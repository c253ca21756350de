import Mathlib.Data.List.Basic
import Mathlib.Data.List.TakeWhile

/-!
# Words

The maximal runs of a list without a separator, and how they come off its front. This is how a
tokenizer sees a line: separators in front do not matter, several in a row count as one, and what is
left behind a word is what follows its separator.
-/

namespace OsLab.Words

variable {α : Type*} [DecidableEq α] {sep : α} {w s : List α}

/-- The maximal nonempty runs without `sep`, in order. -/
def words (sep : α) (s : List α) : List (List α) := (s.splitOn sep).filter (! ·.isEmpty)

@[simp] theorem words_nil : words sep [] = [] := rfl

/-- Separators in front do not matter. -/
theorem words_sep_cons : words sep (sep :: s) = words sep s := by
  have hsplit : ([] ++ sep :: s).splitOn sep = [] :: s.splitOn sep :=
    List.splitOn_append_cons_self_of_not_mem List.not_mem_nil s
  unfold words
  rw [List.nil_append] at hsplit
  rw [hsplit]
  exact List.filter_cons_of_neg (fun h => Bool.noConfusion h)

/-- A list without separators is one word, if it is not empty. -/
theorem words_word (hw : sep ∉ w) (hne : w ≠ []) : words sep w = [w] := by
  unfold words
  rw [List.splitOn_eq_singleton hw, List.filter_cons_of_pos (by simpa using hne)]
  rfl

/-- A word in front of a separator comes first, and the others are those of what follows. -/
theorem words_append (hw : sep ∉ w) (hne : w ≠ []) :
    words sep (w ++ sep :: s) = w :: words sep s := by
  unfold words
  rw [List.splitOn_append_cons_self_of_not_mem hw, List.filter_cons_of_pos (by simpa using hne)]

/-- Skipping the separators in front, as a tokenizer does, loses no word. -/
theorem words_dropWhile (s : List α) : words sep (s.dropWhile (· = sep)) = words sep s := by
  induction s with
  | nil => rfl
  | cons c s ih =>
    by_cases hc : c = sep
    · rw [List.dropWhile_cons_of_pos (by simpa using hc), ih, hc, words_sep_cons]
    · rw [List.dropWhile_cons_of_neg (by simpa using hc)]

/-- The run at the front is the first word, and the rest follows its separator. -/
theorem words_takeWhile (hne : s.takeWhile (· ≠ sep) ≠ []) :
    words sep s = s.takeWhile (· ≠ sep) :: words sep (s.dropWhile (· ≠ sep)).tail := by
  have hnot : sep ∉ s.takeWhile (· ≠ sep) := by
    intro hmem
    simpa using List.mem_takeWhile_imp hmem
  have happend : s.takeWhile (· ≠ sep) ++ s.dropWhile (· ≠ sep) = s :=
    List.takeWhile_append_dropWhile
  generalize hw : s.takeWhile (· ≠ sep) = w at *
  cases hrest : s.dropWhile (· ≠ sep) with
  | nil =>
    rw [hrest, List.append_nil] at happend
    rw [← happend, words_word hnot hne]
    rfl
  | cons c rest =>
    have hc : c = sep := by
      have hhead := List.head?_dropWhile_not (· ≠ sep) s
      rw [hrest] at hhead
      simpa using hhead
    rw [hrest, hc] at happend
    rw [← happend, words_append hnot hne]
    rfl

/-- No word is empty. -/
theorem ne_nil_of_mem_words (h : w ∈ words sep s) : w ≠ [] := by
  unfold words at h
  rw [List.mem_filter] at h
  simpa using h.2

/-! ## Lengths -/

/-- The pieces between separators, and a separator between every two of them, are as long as the
list. -/
theorem length_splitOn (s : List α) :
    (s.splitOn sep).flatten.length + (s.splitOn sep).length = s.length + 1 := by
  induction s with
  | nil => rfl
  | cons c s ih =>
    rw [List.splitOn_cons_eq_if_modifyHead]
    split
    · rw [List.flatten_cons, List.nil_append, List.length_cons, List.length_cons]
      omega
    · obtain ⟨w, ws, hsplit⟩ := List.exists_cons_of_ne_nil (List.splitOn_ne_nil sep s)
      rw [hsplit] at ih ⊢
      rw [List.modifyHead_cons, List.flatten_cons, List.length_cons, List.length_cons,
        List.cons_append, List.length_cons]
      rw [List.flatten_cons, List.length_cons] at ih
      omega

/-- Words have at least one separator between them, so their lengths and their number are bounded by
the length of the list. -/
theorem length_words_le (s : List α) :
    (words sep s).flatten.length + (words sep s).length ≤ s.length + 1 := by
  have hpieces : (s.splitOn sep).flatten.length + (s.splitOn sep).length = s.length + 1 :=
    length_splitOn s
  unfold words
  rw [List.flatten_filter_not_isEmpty, ← hpieces]
  exact Nat.add_le_add_left (List.length_filter_le _ _) _

end OsLab.Words
