import OsLab.Lib.LinkGraph

/-!
# Walking a link graph

How a path leads through the directories of a link graph, with `dot` and `dotdot` in each of them,
and what of it an operation on the graph keeps.

* **`Resolves`**, **`Walks`** -- what a name stands for in a directory, and where names lead.
* **`Keeps`** -- a graph keeps the directories of another one, and its entries but for some `lost`
  ones, which name files. Every edit does: `keeps_addFile` to `keeps_unlink`.
* **`Walks.keep`** -- a walk between directories is kept, because it meets no file on its way.
-/

namespace OsLab.LinkGraph

variable {ν κ : Type*} {g g' : LinkGraph ν κ} {dot dotdot : κ} {d i j p : ν} {n : κ}

/-- In directory `d` the name `n` stands for the node `j`. -/
structure Resolves (g : LinkGraph ν κ) (dot dotdot : κ) (d : ν) (n : κ) (j : ν) : Prop where
  dir : g.kind d = some .dir
  entry : (n = dot ∧ j = d) ∨ (n = dotdot ∧ j = g.parent d) ∨ (n, j) ∈ g.children d

/-- The names `ns` lead from `d` to `q`. -/
def Walks (g : LinkGraph ν κ) (dot dotdot : κ) (d : ν) : List κ → ν → Prop
  | [], q => d = q
  | n :: ns, q => ∃ j, g.Resolves dot dotdot d n j ∧ Walks g dot dotdot j ns q

/-- Directories stay where they are, and entries stay but for the `lost` ones. -/
structure Keeps (g g' : LinkGraph ν κ) (lost : ν → κ × ν → Prop) : Prop where
  dir : ∀ d, g.kind d = some .dir → g'.kind d = some .dir ∧ g'.parent d = g.parent d
  entry : ∀ d, ∀ e ∈ g.children d, e ∈ g'.children d ∨ lost d e
  file : ∀ d e, lost d e → g.kind e.2 = some .file

section Keeps

variable {lost : ν → κ × ν → Prop}

/-- A graph keeps all of itself. -/
theorem Keeps.refl (g : LinkGraph ν κ) : g.Keeps g fun _ _ => False where
  dir _ hd := ⟨hd, rfl⟩
  entry _ _ he := Or.inl he
  file _ _ hfalse := hfalse.elim

/-- What is lost may be described more generously, as long as it is entries of files. -/
theorem Keeps.mono (h : g.Keeps g' lost) {lost' : ν → κ × ν → Prop}
    (hlost : ∀ d e, lost d e → lost' d e) (hfile : ∀ d e, lost' d e → g.kind e.2 = some .file) :
    g.Keeps g' lost' where
  dir := h.dir
  entry d e he := (h.entry d e he).imp_right (hlost d e)
  file := hfile

/-- A name stands for the same node afterwards, unless its entry is the lost one. -/
theorem Resolves.keep (h : g.Resolves dot dotdot d n j) (hk : g.Keeps g' lost)
    (hlost : ¬ lost d (n, j)) : g'.Resolves dot dotdot d n j := by
  obtain ⟨hdir, hparent⟩ := hk.dir d h.dir
  refine ⟨hdir, ?_⟩
  rcases h.entry with hdot | ⟨hn, hj⟩ | hmem
  · exact Or.inl hdot
  · exact Or.inr (Or.inl ⟨hn, hparent ▸ hj⟩)
  · exact Or.inr (Or.inr ((hk.entry d _ hmem).resolve_right hlost))

/-- A walk between directories meets no file, so none of its steps is lost. -/
theorem Walks.keep {ns : List κ} (h : g.Walks dot dotdot d ns p) (hp : g.kind p = some .dir)
    (hk : g.Keeps g' lost) : g'.Walks dot dotdot d ns p := by
  induction ns generalizing d with
  | nil => exact h
  | cons n ns ih =>
    obtain ⟨j, hstep, hrest⟩ := h
    refine ⟨j, hstep.keep hk fun hlost => ?_, ih hrest⟩
    have hj : g.kind j = some .dir := by
      cases ns with
      | nil => exact hrest ▸ hp
      | cons n' ns => exact hrest.choose_spec.1.dir
    have hfile : g.kind j = some .file := hk.file d (n, j) hlost
    rw [hj] at hfile
    cases hfile

end Keeps

/-! ## What the operations keep -/

section Operations

variable [DecidableEq ν]

/-- Entries that are there stay when another one is made. -/
theorem keeps_enter {e : κ × ν} (he : e ∈ g.children d) : e ∈ g.enter p n i d :=
  mem_enter.mpr (Or.inr he)

/-- A new file loses nothing. -/
theorem keeps_addFile (hi : g.kind i = none) : g.Keeps (g.addFile p n i) fun _ _ => False where
  dir d hd := by
    have hdi : d ≠ i := ne_of_kind hd (by simp [hi])
    refine ⟨?_, rfl⟩
    show Function.update g.kind i (some .file) d = _
    rw [Function.update_of_ne hdi, hd]
  entry _ _ he := Or.inl (keeps_enter he)
  file _ _ hfalse := hfalse.elim

/-- A new directory loses nothing: it has been free, so no parent of another directory changes. -/
theorem keeps_addDir (hi : g.kind i = none) : g.Keeps (g.addDir p n i) fun _ _ => False where
  dir d hd := by
    have hdi : d ≠ i := ne_of_kind hd (by simp [hi])
    constructor
    · show Function.update g.kind i (some .dir) d = _
      rw [Function.update_of_ne hdi, hd]
    · show Function.update g.parent i p d = _
      rw [Function.update_of_ne hdi]
  entry _ _ he := Or.inl (keeps_enter he)
  file _ _ hfalse := hfalse.elim

/-- A new link loses nothing. -/
theorem keeps_addLink : g.Keeps (g.addLink p n i) fun _ _ => False where
  dir _ hd := ⟨hd, rfl⟩
  entry _ _ he := Or.inl (keeps_enter he)
  file _ _ hfalse := hfalse.elim

/-- Removing the entry of a file loses this entry alone. -/
theorem keeps_unlink (hi : g.kind i = some .file) {rest : Multiset (κ × ν)}
    (hrest : g.children p = (n, i) ::ₘ rest) :
    g.Keeps (g.unlink p i rest) fun d e => d = p ∧ e = (n, i) where
  dir d hd := by
    have hdi : d ≠ i := ne_of_kind hd (by simp [hi])
    exact ⟨(unlink_kind_of_ne hdi).trans hd, rfl⟩
  entry d e he := by
    rw [← enter_unlink hrest] at he
    exact (mem_enter.mp he).symm
  file d e hlost := by
    rw [hlost.2]
    exact hi

end Operations

end OsLab.LinkGraph
