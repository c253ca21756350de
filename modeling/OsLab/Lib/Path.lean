import Mathlib.Data.List.Basic

/-!
# Joining and splitting at a separator

A path as a separator in front of each component, and its splitting at the separator. Components do
not hold the separator; then a path can be split into the components that it was made of, and
different components make different paths.

* **`render`** -- the separator in front of each component, as in `/usr/bin`. `splitOn_render`
  splits it again.
* **`close`** -- the separator behind each component, as lines are ended.
* **`render_injective`**, **`close_injective`** -- nothing is lost by joining.
-/

namespace OsLab.Path

variable {α : Type*} {sep : α}

/-- Each component with the separator in front. -/
def render (sep : α) (cs : List (List α)) : List α := cs.flatMap (sep :: ·)

@[simp] theorem render_nil : render sep [] = [] := rfl

@[simp] theorem render_cons (c : List α) (cs : List (List α)) :
    render sep (c :: cs) = sep :: (c ++ render sep cs) := rfl

/-- Paths are joined by joining their components. -/
theorem render_append (cs ds : List (List α)) :
    render sep (cs ++ ds) = render sep cs ++ render sep ds :=
  List.flatMap_append

/-- Each component with the separator behind. -/
def close (sep : α) (cs : List (List α)) : List α := cs.flatMap (· ++ [sep])

/-- A separator in front and one behind each component is the same text as one in front of each and
a last one. -/
theorem cons_close (cs : List (List α)) : sep :: close sep cs = render sep cs ++ [sep] := by
  induction cs with
  | nil => rfl
  | cons c cs ih =>
    show sep :: ((c ++ [sep]) ++ close sep cs) = _
    rw [List.append_assoc, List.singleton_append, ih, render_cons]
    simp only [List.cons_append, List.append_assoc]

/-! ## Separators between the components -/

/-- A character of a joined text is the separator or belongs to a component. -/
theorem mem_intercalate {c : α} {cs : List (List α)} (h : c ∈ [sep].intercalate cs) :
    c = sep ∨ ∃ d ∈ cs, c ∈ d := by
  induction cs with
  | nil => simp at h
  | cons d cs ih =>
    cases cs with
    | nil =>
      rw [List.intercalate_singleton] at h
      exact .inr ⟨d, List.mem_cons_self .., h⟩
    | cons d' cs =>
      rw [List.intercalate_cons_cons, List.mem_append, List.mem_append, List.mem_singleton] at h
      rcases h with (hc | hc) | hc
      · exact .inr ⟨d, List.mem_cons_self .., hc⟩
      · exact .inl hc
      · exact (ih hc).imp_right fun ⟨e, he, hmem⟩ => ⟨e, List.mem_cons_of_mem _ he, hmem⟩

/-- Components that are not empty make an empty text only if there are none. -/
theorem intercalate_eq_nil {cs : List (List α)} (h : ∀ c ∈ cs, c ≠ []) :
    [sep].intercalate cs = [] ↔ cs = [] := by
  constructor
  · intro hnil
    cases cs with
    | nil => rfl
    | cons c cs =>
      have hc := h c (List.mem_cons_self ..)
      cases cs <;> simp [hc] at hnil
  · rintro rfl
    rfl

/-- A component is added to a joined text behind a separator. -/
theorem intercalate_concat {cs : List (List α)} {c : List α} (h : cs ≠ []) :
    [sep].intercalate (cs ++ [c]) = [sep].intercalate cs ++ sep :: c := by
  induction cs with
  | nil => exact absurd rfl h
  | cons d cs ih =>
    cases cs with
    | nil => simp
    | cons d' cs =>
      have hrest := ih (List.cons_ne_nil _ _)
      simp only [List.cons_append, List.intercalate_cons_cons] at hrest ⊢
      rw [hrest]
      simp only [List.append_assoc]

/-! ## Splitting -/

variable [BEq α] [LawfulBEq α]

/-- Splitting what begins with a component gives that component and the others. By induction on the
components. -/
theorem splitOn_append_render {cs : List (List α)} : ∀ {c : List α}, sep ∉ c →
    (∀ d ∈ cs, sep ∉ d) → (c ++ render sep cs).splitOn sep = c :: cs := by
  induction cs with
  | nil =>
    intro c hc _
    rw [render_nil, List.append_nil]
    exact List.splitOn_eq_singleton hc
  | cons d ds ih =>
    intro c hc hds
    rw [List.forall_mem_cons] at hds
    rw [render_cons, List.splitOn_append_cons_self_of_not_mem hc, ih hds.1 hds.2]

/-- Splitting gives the components back, after an empty one for what stands in front of the first
separator. -/
theorem splitOn_render {cs : List (List α)} (h : ∀ c ∈ cs, sep ∉ c) :
    (render sep cs).splitOn sep = [] :: cs := by
  have hsplit := splitOn_append_render (List.not_mem_nil (a := sep)) h
  rwa [List.nil_append] at hsplit

/-- Paths without separators inside their components are the same only if all components are. -/
theorem render_injective {cs ds : List (List α)} (hcs : ∀ c ∈ cs, sep ∉ c)
    (hds : ∀ d ∈ ds, sep ∉ d) (h : render sep cs = render sep ds) : cs = ds := by
  have hsplit := splitOn_render hcs
  rw [h, splitOn_render hds] at hsplit
  exact (List.cons.inj hsplit).2.symm

/-- The same with the separator behind: lines can be told from the text they make. -/
theorem close_injective {cs ds : List (List α)} (hcs : ∀ c ∈ cs, sep ∉ c)
    (hds : ∀ d ∈ ds, sep ∉ d) (h : close sep cs = close sep ds) : cs = ds := by
  apply render_injective hcs hds
  have hcons := congrArg (sep :: ·) h
  simp only [cons_close] at hcons
  exact List.append_cancel_right hcons

end OsLab.Path
