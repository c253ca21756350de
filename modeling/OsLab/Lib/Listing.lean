import OsLab.Lib.LinkGraph

/-!
# Directory listings

A file system keeps the entries of a directory as a list that starts with `.` and `..`. What a
checker counts in the lists is what the link graph says.

* **`Lists`** -- the lists are those of a graph: `dot`, `dotdot` and the children of each directory,
  and nothing for files and free nodes.
* **`sum_file`**, **`sum_named`** -- the entries that name a node, counted over all lists, are its
  links.
* **`subdirs_eq`** -- the entries of a directory that name directories are its subdirectories.

With these a link count that is checked against the lists is checked against the graph.
-/

namespace OsLab.LinkGraph

/-- The entries of directory `i` in `entries` are `dot`, `dotdot` and the children of `i`. -/
structure Lists {ν κ : Type*} (g : LinkGraph ν κ) (dot dotdot : κ) (entries : ν → List (κ × ν)) :
    Prop where
  distinct : dot ≠ dotdot
  dir : ∀ i, g.kind i = some .dir → ∃ kids, entries i = (dot, i) :: (dotdot, g.parent i) :: kids ∧
    g.children i = kids ∧ ∀ e ∈ kids, e.1 ≠ dot ∧ e.1 ≠ dotdot
  other : ∀ i, g.kind i ≠ some .dir → entries i = []

/-- The entries other than `dot` and `dotdot`. -/
def named {ν κ : Type*} [DecidableEq κ] (dot dotdot : κ) (l : List (κ × ν)) : List (κ × ν) :=
  l.filter fun e => e.1 ≠ dot ∧ e.1 ≠ dotdot

namespace Lists

variable {ν κ : Type*} {g : LinkGraph ν κ} {dot dotdot n : κ} {entries : ν → List (κ × ν)} {i j : ν}

section Entries

variable (h : g.Lists dot dotdot entries)
include h

/-- Whoever has an entry in its list is a directory. -/
theorem mem_dir (hmem : (n, j) ∈ entries i) : g.kind i = some .dir := by
  by_contra hi
  rw [h.other i hi] at hmem
  cases hmem

/-- The list of a directory names the directory itself and its parent. -/
theorem dot_mem (hi : g.kind i = some .dir) :
    (dot, i) ∈ entries i ∧ (dotdot, g.parent i) ∈ entries i := by
  obtain ⟨kids, hlist, _⟩ := h.dir i hi
  simp [hlist]

variable [DecidableEq ν] {nodes : Finset ν} {root : ν} (hg : g.WellLinked nodes root)
include hg

/-- The names in one list differ, `dot` and `dotdot` included. -/
theorem nodup (i : ν) : ((entries i).map Prod.fst).Nodup := by
  by_cases hi : g.kind i = some .dir
  · obtain ⟨kids, hlist, hchildren, hkids⟩ := h.dir i hi
    have hnames : (kids.map Prod.fst).Nodup := by
      have hnodup := hg.names i
      rw [hchildren] at hnodup
      exact hnodup
    have hdot : dot ∉ kids.map Prod.fst := by
      simpa using fun j hmem => (hkids (dot, j) hmem).1 rfl
    have hdotdot : dotdot ∉ kids.map Prod.fst := by
      simpa using fun j hmem => (hkids (dotdot, j) hmem).2 rfl
    rw [hlist]
    simp only [List.map_cons, List.nodup_cons, List.mem_cons, not_or]
    exact ⟨⟨h.distinct, hdot⟩, hdotdot, hnames⟩
  · rw [h.other i hi]
    exact List.nodup_nil

/-- Every entry names a node in use: a child, the directory itself or its parent. -/
theorem target {e : κ × ν} (hmem : e ∈ entries i) : g.kind e.2 ≠ none := by
  have hi := h.mem_dir (n := e.1) (j := e.2) hmem
  obtain ⟨kids, hlist, hchildren, _⟩ := h.dir i hi
  rw [hlist] at hmem
  rcases List.mem_cons.mp hmem with rfl | hmem
  · simp [hi]
  · rcases List.mem_cons.mp hmem with rfl | hmem
    · simp [hg.parent_dir hi]
    · apply hg.target i
      rw [hchildren]
      exact hmem

/-- The entries that name a file are its links: `dot` and `dotdot` name no file. -/
theorem sum_file (hi : g.kind i = some .file) :
    ∑ d ∈ nodes, (entries d).countP (fun e => e.2 = i) = links nodes g.children i := by
  refine Finset.sum_congr rfl fun d _ => ?_
  by_cases hd : g.kind d = some .dir
  · obtain ⟨kids, hlist, hchildren, _⟩ := h.dir d hd
    have hdi : d ≠ i := by
      rintro rfl
      rw [hi] at hd
      cases hd
    have hpi : g.parent d ≠ i := by
      intro heq
      have hparent := hg.parent_dir hd
      rw [heq, hi] at hparent
      cases hparent
    rw [hlist, hchildren, Multiset.coe_countP]
    simp [hdi, hpi]
  · rw [h.other d hd, hg.source d hd]
    rfl

end Entries

section Named

variable [DecidableEq κ] (h : g.Lists dot dotdot entries)
include h

/-- Without `dot` and `dotdot` the list of a directory holds its children. -/
theorem named_eq (hi : g.kind i = some .dir) : g.children i = named dot dotdot (entries i) := by
  obtain ⟨kids, hlist, hchildren, hkids⟩ := h.dir i hi
  have hfilter : named dot dotdot (entries i) = kids := by
    rw [named, hlist]
    simpa using hkids
  rw [hfilter, hchildren]

variable [DecidableEq ν] {nodes : Finset ν} {root : ν} (hg : g.WellLinked nodes root)
include hg

/-- The same for every node, since one that is no directory has neither a list nor children. -/
theorem children_eq (i : ν) : g.children i = named dot dotdot (entries i) := by
  by_cases hi : g.kind i = some .dir
  · exact h.named_eq hi
  · rw [h.other i hi, hg.source i hi]
    rfl

/-- The entries other than `dot` and `dotdot` that name a node, over all directories, are its
links. -/
theorem sum_named (i : ν) :
    ∑ d ∈ nodes, (named dot dotdot (entries d)).countP (fun e => e.2 = i) =
      links nodes g.children i := by
  refine Finset.sum_congr rfl fun d _ => ?_
  rw [h.children_eq hg d, Multiset.coe_countP]

/-- The entries of a directory that name directories are as many as the graph has subdirectories of
it. -/
theorem subdirs_eq {isDir : ν → Bool} (hdir : ∀ j, isDir j = true ↔ g.kind j = some .dir) (i : ν) :
    g.subdirs i = (named dot dotdot (entries i)).countP fun e => isDir e.2 := by
  rw [subdirs, h.children_eq hg i, Multiset.coe_countP]
  refine List.countP_congr fun e _ => ?_
  rw [hdir, decide_eq_true_eq]

end Named

end Lists

end OsLab.LinkGraph
