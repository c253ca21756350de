import Mathlib.Algebra.Order.BigOperators.Group.Finset
import Mathlib.Data.Multiset.Count
import Mathlib.Data.Multiset.ZeroCons

/-!
# Directory graphs with link counts

The namespace of a Unix file system: directories and files are nodes, a directory holds named
entries, and each node keeps a count of its links. A file may be entered anywhere and any number of
times; a directory other than the root has exactly one entry, in its parent. Entries `.` and `..`
are not entries here: `parent` stands for `..`, and the two links a directory has from them are
counted apart.

* **`LinkGraph`** -- a namespace over any nodes and names, with the five edits of a file system:
  `single`, `addFile`, `addDir`, `addLink` and `unlink`.
* **`WellLinked`** -- the invariant: the counts and the entries agree, every directory but the root
  has its one entry in its parent, and the names of a directory differ.
* **`WellLinked.addFile`** to **`WellLinked.unlink`** -- each edit keeps it. A file system whose
  entries are those of a well-linked graph needs no other argument about its counts.
-/

namespace OsLab

inductive NodeKind where
  | file
  | dir
  deriving DecidableEq

/-- A namespace over nodes `ν` with entry names `κ`. A node of no kind is free. -/
structure LinkGraph (ν : Type*) (κ : Type*) where
  kind : ν → Option NodeKind
  children : ν → Multiset (κ × ν)
  parent : ν → ν
  refs : ν → Int

namespace LinkGraph

variable {ν : Type*} {κ : Type*} [DecidableEq ν]

/-- How many entries in directories of `nodes` name `i`. -/
def links (nodes : Finset ν) (children : ν → Multiset (κ × ν)) (i : ν) : Nat :=
  ∑ d ∈ nodes, (children d).countP fun e => e.2 = i

/-- How many entries of `d` name directories. -/
def subdirs (g : LinkGraph ν κ) (d : ν) : Nat :=
  (g.children d).countP fun e => g.kind e.2 = some .dir

/-- The counts and the entries agree. -/
structure WellLinked (nodes : Finset ν) (root : ν) (g : LinkGraph ν κ) : Prop where
  root_dir : g.kind root = some .dir
  live : ∀ i, g.kind i ≠ none → i ∈ nodes
  source : ∀ d, g.kind d ≠ some .dir → g.children d = 0
  target : ∀ d, ∀ e ∈ g.children d, g.kind e.2 ≠ none
  names : ∀ d, ((g.children d).map Prod.fst).Nodup
  file_refs : ∀ i, g.kind i = some .file → g.refs i = links nodes g.children i
  file_linked : ∀ i, g.kind i = some .file → 1 ≤ links nodes g.children i
  dir_refs : ∀ i, g.kind i = some .dir → g.refs i = 2 + g.subdirs i
  dir_links : ∀ i, g.kind i = some .dir → links nodes g.children i = if i = root then 0 else 1
  parent_root : g.parent root = root
  parent_link : ∀ i, g.kind i = some .dir → i ≠ root → ∃ n, (n, i) ∈ g.children (g.parent i)

omit [DecidableEq ν] in
/-- Nodes of different kinds are different nodes. -/
theorem ne_of_kind {g : LinkGraph ν κ} {i j : ν} {k : NodeKind} (hi : g.kind i = some k)
    (hj : g.kind j ≠ some k) : i ≠ j := by
  rintro rfl
  exact hj hi

/-! ## Operations -/

/-- A root directory with no entries. -/
def single (root : ν) : LinkGraph ν κ where
  kind := Function.update (fun _ => none) root (some .dir)
  children _ := 0
  parent _ := root
  refs _ := 2

/-- Enter node `i` in directory `d` under the name `n`. -/
def enter (g : LinkGraph ν κ) (d : ν) (n : κ) (i : ν) : ν → Multiset (κ × ν) :=
  Function.update g.children d ((n, i) ::ₘ g.children d)

/-- A new file `i`. -/
def addFile (g : LinkGraph ν κ) (d : ν) (n : κ) (i : ν) : LinkGraph ν κ :=
  { g with
    kind := Function.update g.kind i (some .file)
    children := g.enter d n i
    refs := Function.update g.refs i 1 }

/-- A new directory `i`. -/
def addDir (g : LinkGraph ν κ) (d : ν) (n : κ) (i : ν) : LinkGraph ν κ where
  kind := Function.update g.kind i (some .dir)
  children := g.enter d n i
  parent := Function.update g.parent i d
  refs := Function.update (Function.update g.refs i 2) d (g.refs d + 1)

/-- A further link to file `i`. -/
def addLink (g : LinkGraph ν κ) (d : ν) (n : κ) (i : ν) : LinkGraph ν κ :=
  { g with
    children := g.enter d n i
    refs := Function.update g.refs i (g.refs i + 1) }

/-- Remove the entry `n` of file `i`, leaving `rest` in `d`; the last link frees the file. -/
def unlink (g : LinkGraph ν κ) (d i : ν) (rest : Multiset (κ × ν)) : LinkGraph ν κ :=
  { g with
    kind := if g.refs i = 1 then Function.update g.kind i none else g.kind
    children := Function.update g.children d rest
    refs := Function.update g.refs i (g.refs i - 1) }

/-! ## Counting links -/

section Counting

variable {nodes : Finset ν} {g : LinkGraph ν κ} {d i : ν} {n : κ}

/-- What is in a directory after an entry is made: the new entry in `d`, and everything that was
there. -/
theorem mem_enter {x : ν} {e : κ × ν} :
    e ∈ g.enter d n i x ↔ (x = d ∧ e = (n, i)) ∨ e ∈ g.children x := by
  by_cases hx : x = d
  · subst hx
    simp [enter]
  · simp [enter, hx]

/-- A new entry is one more link of the node that it names, and of no other. -/
theorem links_enter (hd : d ∈ nodes) (j : ν) :
    links nodes (g.enter d n i) j = links nodes g.children j + if i = j then 1 else 0 := by
  have hsame : ∀ x ∈ nodes.erase d,
      (g.enter d n i x).countP (fun e => e.2 = j) = (g.children x).countP (fun e => e.2 = j) := by
    intro x hx
    rw [enter, Function.update_of_ne (Finset.ne_of_mem_erase hx)]
  have hd' : g.enter d n i d = (n, i) ::ₘ g.children d := Function.update_self ..
  unfold links
  rw [← Finset.add_sum_erase nodes _ hd, ← Finset.add_sum_erase nodes _ hd,
    Finset.sum_congr rfl hsame, hd', Multiset.countP_cons]
  show _ + (if i = j then 1 else 0) + _ = _
  omega

/-- A node that has an entry has a link. -/
theorem links_pos {children : ν → Multiset (κ × ν)} (hd : d ∈ nodes) (h : (n, i) ∈ children d) :
    1 ≤ links nodes children i := by
  calc 1 ≤ (children d).countP (fun e => e.2 = i) := Multiset.countP_pos.mpr ⟨(n, i), h, rfl⟩
    _ ≤ links nodes children i :=
      Finset.single_le_sum (f := fun d => (children d).countP fun e => e.2 = i)
        (fun _ _ => Nat.zero_le _) hd

/-- A node that no entry names has no link. -/
theorem links_eq_zero {children : ν → Multiset (κ × ν)}
    (h : ∀ d, ∀ e ∈ children d, e.2 ≠ i) : links nodes children i = 0 := by
  refine Finset.sum_eq_zero fun d _ => ?_
  rw [Multiset.countP_eq_zero]
  exact h d

/-- Removing an entry is the reverse of entering it: entered again in the graph it was removed from,
it gives the entries back. -/
theorem enter_unlink {rest : Multiset (κ × ν)} (h : g.children d = (n, i) ::ₘ rest) :
    (g.unlink d i rest).enter d n i = g.children := by
  funext x
  by_cases hx : x = d
  · subst hx
    simp [enter, unlink, h]
  · simp [enter, unlink, hx]

/-- Removing an entry of `i` changes the kind of no other node. -/
theorem unlink_kind_of_ne {rest : Multiset (κ × ν)} {j : ν} (h : j ≠ i) :
    (g.unlink d i rest).kind j = g.kind j := by
  simp only [unlink]
  split
  · exact Function.update_of_ne h ..
  · rfl

/-- What is still in use after an unlink is what it was; a node only ever becomes free. -/
theorem unlink_kind {rest : Multiset (κ × ν)} {j : ν} (h : (g.unlink d i rest).kind j ≠ none) :
    (g.unlink d i rest).kind j = g.kind j := by
  by_cases hji : j = i
  · subst hji
    simp only [unlink] at h ⊢
    split at h
    · rw [Function.update_self] at h
      exact absurd rfl h
    · rw [if_neg ‹_›]
  · exact unlink_kind_of_ne hji

/-- Directories entered in `x`, after an entry is made and kinds change outside `x`. -/
theorem subdirs_enter {kind : ν → Option NodeKind} {x : ν}
    (hkind : ∀ e ∈ g.children x, kind e.2 = some .dir ↔ g.kind e.2 = some .dir) :
    (g.enter d n i x).countP (fun e => kind e.2 = some .dir) =
      g.subdirs x + if x = d ∧ kind i = some .dir then 1 else 0 := by
  have hcongr : (g.children x).countP (fun e => kind e.2 = some .dir) = g.subdirs x :=
    Multiset.countP_congr rfl fun e he => by simpa using hkind e he
  by_cases hx : x = d
  · subst hx
    rw [enter, Function.update_self, Multiset.countP_cons, hcongr]
    simp
  · rw [enter, Function.update_of_ne hx, hcongr]
    simp [hx]

end Counting

/-! ## The operations keep the counts right -/

section Preservation

variable {nodes : Finset ν} {root : ν} {g : LinkGraph ν κ} {d i : ν} {n : κ}

@[simp] theorem single_kind_root (root : ν) : (single root : LinkGraph ν κ).kind root = some .dir := by
  simp [single]

/-- All nodes but the root are free in a new graph. -/
theorem single_kind_of_ne {root i : ν} (hi : i ≠ root) :
    (single root : LinkGraph ν κ).kind i = none := by
  simp [single, hi]

/-- A root directory with no entries is well linked. -/
theorem single_wellLinked (hroot : root ∈ nodes) :
    WellLinked nodes root (single root : LinkGraph ν κ) := by
  have hkind : ∀ {i k}, (single root : LinkGraph ν κ).kind i = some k → i = root ∧ k = .dir := by
    intro i k hk
    by_cases hi : i = root
    · subst hi
      exact ⟨rfl, Option.some.inj (hk.symm.trans (single_kind_root i))⟩
    · rw [single_kind_of_ne hi] at hk
      cases hk
  have hlinks : ∀ i, links nodes (single root : LinkGraph ν κ).children i = 0 := by
    intro i
    exact links_eq_zero fun d e he => absurd he (Multiset.notMem_zero e)
  constructor
  case root_dir => exact single_kind_root root
  case live =>
    intro i hi
    obtain ⟨k, hk⟩ := Option.ne_none_iff_exists'.mp hi
    exact (hkind hk).1 ▸ hroot
  case source => exact fun _ _ => rfl
  case target => exact fun d e he => absurd he (Multiset.notMem_zero e)
  case names => exact fun _ => Multiset.nodup_zero
  case file_refs =>
    intro i hfile
    cases (hkind hfile).2
  case file_linked =>
    intro i hfile
    cases (hkind hfile).2
  case dir_refs => exact fun _ _ => rfl
  case dir_links =>
    intro i hdir
    rw [hlinks, if_pos (hkind hdir).1]
  case parent_root => rfl
  case parent_link =>
    intro i hdir hne
    exact absurd (hkind hdir).1 hne

namespace WellLinked

/-- A free node has no entry, so its number can be given out again. -/
theorem links_free (h : WellLinked nodes root g) (hi : g.kind i = none) :
    links nodes g.children i = 0 :=
  links_eq_zero fun d e he heq => h.target d e he (heq ▸ hi)

/-- Only directories hold entries. -/
theorem dir_of_mem (h : WellLinked nodes root g) {e : κ × ν} (he : e ∈ g.children d) :
    g.kind d = some .dir := by
  by_contra hd
  rw [h.source d hd] at he
  exact Multiset.notMem_zero e he

/-- The parent of a directory is a directory. -/
theorem parent_dir (h : WellLinked nodes root g) (hd : g.kind d = some .dir) :
    g.kind (g.parent d) = some .dir := by
  by_cases hroot : d = root
  · rw [hroot, h.parent_root]
    exact h.root_dir
  · obtain ⟨n, hmem⟩ := h.parent_link d hd hroot
    exact h.dir_of_mem hmem

/-- A name that is free in `d` may be entered there: the names of each directory still differ. -/
theorem names_enter (h : WellLinked nodes root g) (hn : ∀ e ∈ g.children d, e.1 ≠ n) (x : ν) :
    ((g.enter d n i x).map Prod.fst).Nodup := by
  by_cases hx : x = d
  · subst hx
    rw [enter, Function.update_self, Multiset.map_cons, Multiset.nodup_cons]
    refine ⟨fun hmem => ?_, h.names x⟩
    obtain ⟨e, he, heq⟩ := Multiset.mem_map.mp hmem
    exact hn e he heq
  · rw [enter, Function.update_of_ne hx]
    exact h.names x

/-- A node that is no directory holds nothing, also after an entry has been made in a directory. -/
theorem source_enter (h : WellLinked nodes root g) (hd : g.kind d = some .dir) {x : ν}
    (hx : g.kind x ≠ some .dir) : g.enter d n i x = 0 := by
  have hne : x ≠ d := by
    rintro rfl
    exact hx hd
  rw [enter, Function.update_of_ne hne]
  exact h.source x hx

/-- A directory other than the root keeps its entry in its parent when another entry is made. -/
theorem parent_link_enter (h : WellLinked nodes root g) {j : ν} (hj : g.kind j = some .dir)
    (hroot : j ≠ root) : ∃ m, (m, j) ∈ g.enter d n i (g.parent j) := by
  obtain ⟨m, hm⟩ := h.parent_link j hj hroot
  exact ⟨m, mem_enter.mpr (.inr hm)⟩

/-- A file that has been free so far is entered in `d` under a new name, with one link. -/
theorem addFile (h : WellLinked nodes root g) (hd : g.kind d = some .dir) (hi : g.kind i = none)
    (hnodes : i ∈ nodes) (hn : ∀ e ∈ g.children d, e.1 ≠ n) :
    WellLinked nodes root (g.addFile d n i) := by
  have hdn : d ∈ nodes := h.live d (by simp [hd])
  have hkind : ∀ j, j ≠ i → (g.addFile d n i).kind j = g.kind j :=
    fun j hj => Function.update_of_ne hj ..
  have hself : (g.addFile d n i).kind i = some .file := Function.update_self ..
  -- The new node was none before, so what was there before is another one.
  have hne : ∀ {j}, g.kind j ≠ none → j ≠ i := by
    rintro j hj rfl
    exact hj hi
  have hdir : ∀ j, (g.addFile d n i).kind j = some .dir → j ≠ i ∧ g.kind j = some .dir := by
    intro j hj
    by_cases hji : j = i
    · subst hji
      rw [hself] at hj
      cases hj
    · exact ⟨hji, hkind j hji ▸ hj⟩
  have hlinks : ∀ j, links nodes (g.addFile d n i).children j =
      links nodes g.children j + if i = j then 1 else 0 := fun j => links_enter hdn j
  constructor
  case root_dir =>
    rw [hkind root (hne (by simp [h.root_dir])), h.root_dir]
  case live =>
    intro j hj
    by_cases hji : j = i
    · exact hji ▸ hnodes
    · exact h.live j (hkind j hji ▸ hj)
  case source =>
    intro x hx
    apply h.source_enter hd
    intro hx'
    exact hx (by rw [hkind x (hne (by simp [hx'])), hx'])
  case target =>
    intro x e he
    rcases mem_enter.mp he with ⟨_, rfl⟩ | he
    · simp [hself]
    · have htarget := h.target x e he
      rwa [hkind e.2 (hne htarget)]
  case names => exact h.names_enter hn
  -- The new file has the one link that it is entered with.
  case file_refs =>
    intro j hj
    by_cases hji : j = i
    · subst hji
      rw [hlinks, h.links_free hi]
      simp [LinkGraph.addFile]
    · rw [hlinks, if_neg (Ne.symm hji), Nat.add_zero, ← h.file_refs j (hkind j hji ▸ hj)]
      exact Function.update_of_ne hji ..
  case file_linked =>
    intro j hj
    rw [hlinks]
    by_cases hji : j = i
    · simp [hji]
    · have := h.file_linked j (hkind j hji ▸ hj)
      omega
  -- A file is no subdirectory, so the counts of directories stay.
  case dir_refs =>
    intro j hj
    obtain ⟨hji, hj⟩ := hdir j hj
    have hsub : (g.addFile d n i).subdirs j = g.subdirs j := by
      refine (subdirs_enter fun e he => ?_).trans ?_
      · rw [hkind e.2 (hne (h.target j e he))]
      · simp [hself]
    rw [hsub, ← h.dir_refs j hj]
    exact Function.update_of_ne hji ..
  case dir_links =>
    intro j hj
    obtain ⟨hji, hj⟩ := hdir j hj
    rw [hlinks, if_neg (Ne.symm hji), Nat.add_zero, h.dir_links j hj]
  case parent_root => exact h.parent_root
  case parent_link =>
    intro j hj hroot
    exact h.parent_link_enter (hdir j hj).2 hroot

/-- A directory that has been free so far is entered in `d` under a new name; its parent gets a link
from its `..`. -/
theorem addDir (h : WellLinked nodes root g) (hd : g.kind d = some .dir) (hi : g.kind i = none)
    (hnodes : i ∈ nodes) (hn : ∀ e ∈ g.children d, e.1 ≠ n) :
    WellLinked nodes root (g.addDir d n i) := by
  have hdn : d ∈ nodes := h.live d (by simp [hd])
  have hkind : ∀ j, j ≠ i → (g.addDir d n i).kind j = g.kind j :=
    fun j hj => Function.update_of_ne hj ..
  have hself : (g.addDir d n i).kind i = some .dir := Function.update_self ..
  have hne : ∀ {j}, g.kind j ≠ none → j ≠ i := by
    rintro j hj rfl
    exact hj hi
  have hid : i ≠ d := (hne (by simp [hd])).symm
  have hiroot : i ≠ root := (hne (by simp [h.root_dir])).symm
  -- The new node is a directory, so the files are the ones of before.
  have hfile : ∀ j, (g.addDir d n i).kind j = some .file → j ≠ i ∧ g.kind j = some .file := by
    intro j hj
    by_cases hji : j = i
    · subst hji
      rw [hself] at hj
      cases hj
    · exact ⟨hji, hkind j hji ▸ hj⟩
  have hlinks : ∀ j, links nodes (g.addDir d n i).children j =
      links nodes g.children j + if i = j then 1 else 0 := fun j => links_enter hdn j
  -- A new directory counts as a reference to its parent, through its `..`.
  have hrefs : ∀ j, j ≠ i → j ≠ d → (g.addDir d n i).refs j = g.refs j := by
    intro j hji hjd
    simp [LinkGraph.addDir, hji, hjd]
  constructor
  case root_dir =>
    rw [hkind root hiroot.symm, h.root_dir]
  case live =>
    intro j hj
    by_cases hji : j = i
    · exact hji ▸ hnodes
    · exact h.live j (hkind j hji ▸ hj)
  case source =>
    intro x hx
    apply h.source_enter hd
    intro hx'
    exact hx (by rw [hkind x (hne (by simp [hx'])), hx'])
  case target =>
    intro x e he
    rcases mem_enter.mp he with ⟨_, rfl⟩ | he
    · simp [hself]
    · have htarget := h.target x e he
      rwa [hkind e.2 (hne htarget)]
  case names => exact h.names_enter hn
  case file_refs =>
    intro j hj
    obtain ⟨hji, hj'⟩ := hfile j hj
    have hjd : j ≠ d := by
      rintro rfl
      rw [hd] at hj'
      cases hj'
    rw [hlinks, if_neg (Ne.symm hji), hrefs j hji hjd]
    exact h.file_refs j hj'
  case file_linked =>
    intro j hj
    rw [hlinks]
    have := h.file_linked j (hfile j hj).2
    omega
  case dir_refs =>
    intro j hj
    -- Exactly `d` has a subdirectory more, to match its new reference.
    have hsub : (g.addDir d n i).subdirs j = g.subdirs j + if j = d then 1 else 0 := by
      refine (subdirs_enter fun e he => ?_).trans ?_
      · rw [hkind e.2 (hne (h.target j e he))]
      · simp [hself]
    rw [hsub]
    by_cases hji : j = i
    · -- the new directory is empty
      subst hji
      have hempty : g.subdirs j = 0 := by
        rw [subdirs, h.source j (by simp [hi])]
        rfl
      simp [hempty, hid, LinkGraph.addDir]
    · have hj' : g.kind j = some .dir := hkind j hji ▸ hj
      by_cases hjd : j = d
      · subst hjd
        have hself : (g.addDir j n i).refs j = g.refs j + 1 := Function.update_self ..
        rw [hself, h.dir_refs j hj']
        simp [Int.add_assoc]
      · rw [hrefs j hji hjd, if_neg hjd]
        exact h.dir_refs j hj'
  case dir_links =>
    intro j hj
    rw [hlinks]
    by_cases hji : j = i
    · subst hji
      simp [h.links_free hi, hiroot]
    · rw [if_neg (Ne.symm hji), Nat.add_zero, h.dir_links j (hkind j hji ▸ hj)]
  case parent_root =>
    have hparent : (g.addDir d n i).parent root = g.parent root :=
      Function.update_of_ne hiroot.symm ..
    rw [hparent, h.parent_root]
  case parent_link =>
    intro j hj hroot
    by_cases hji : j = i
    · subst hji
      have hparent : (g.addDir d n j).parent j = d := Function.update_self ..
      rw [hparent]
      exact ⟨n, mem_enter.mpr (.inl ⟨rfl, rfl⟩)⟩
    · have hparent : (g.addDir d n i).parent j = g.parent j := Function.update_of_ne hji ..
      rw [hparent]
      exact h.parent_link_enter (hkind j hji ▸ hj) hroot

/-- A further entry of a file under a new name, with one link more. -/
theorem addLink (h : WellLinked nodes root g) (hd : g.kind d = some .dir)
    (hi : g.kind i = some .file) (hn : ∀ e ∈ g.children d, e.1 ≠ n) :
    WellLinked nodes root (g.addLink d n i) := by
  have hdn : d ∈ nodes := h.live d (by simp [hd])
  -- The linked node is a file: nothing that is said of directories is about it.
  have hdir : ∀ {j}, g.kind j = some .dir → j ≠ i := by
    rintro j hj rfl
    rw [hi] at hj
    cases hj
  have hlinks : ∀ j, links nodes (g.addLink d n i).children j =
      links nodes g.children j + if i = j then 1 else 0 := fun j => links_enter hdn j
  have hrefs : ∀ j, j ≠ i → (g.addLink d n i).refs j = g.refs j :=
    fun j hj => Function.update_of_ne hj ..
  constructor
  case root_dir => exact h.root_dir
  case live => exact h.live
  case source => exact fun x hx => h.source_enter hd hx
  case target =>
    intro x e he
    rcases mem_enter.mp he with ⟨_, rfl⟩ | he
    · show g.kind i ≠ none
      simp [hi]
    · exact h.target x e he
  case names => exact h.names_enter hn
  -- The new entry and the new reference meet at `i`.
  case file_refs =>
    intro j hj
    rw [hlinks]
    by_cases hji : j = i
    · subst hji
      have hself : (g.addLink d n j).refs j = g.refs j + 1 := Function.update_self ..
      rw [hself, h.file_refs j hj]
      simp
    · rw [hrefs j hji, if_neg (Ne.symm hji)]
      exact h.file_refs j hj
  case file_linked =>
    intro j hj
    rw [hlinks]
    have := h.file_linked j hj
    omega
  case dir_refs =>
    intro j hj
    have hsub : (g.addLink d n i).subdirs j = g.subdirs j := by
      refine (subdirs_enter fun e _ => Iff.rfl).trans ?_
      simp [hi]
    rw [hsub, hrefs j (hdir hj)]
    exact h.dir_refs j hj
  case dir_links =>
    intro j hj
    rw [hlinks, if_neg (hdir hj).symm, Nat.add_zero]
    exact h.dir_links j hj
  case parent_root => exact h.parent_root
  case parent_link => exact fun j hj hroot => h.parent_link_enter hj hroot

/-- The entry of a file goes, and one link of it; with the last one the file is free. -/
theorem unlink (h : WellLinked nodes root g) (hi : g.kind i = some .file)
    {rest : Multiset (κ × ν)} (hrest : g.children d = (n, i) ::ₘ rest) :
    WellLinked nodes root (g.unlink d i rest) := by
  have hd : g.kind d = some .dir := h.dir_of_mem (e := (n, i)) (by simp [hrest])
  have hdn : d ∈ nodes := h.live d (by simp [hd])
  -- Only `i` loses a link, and only one.
  have hlinks : ∀ j, links nodes g.children j =
      links nodes (g.unlink d i rest).children j + if i = j then 1 else 0 := by
    intro j
    rw [← links_enter hdn, enter_unlink hrest]
  have hsubset : ∀ {x} {e : κ × ν}, e ∈ (g.unlink d i rest).children x → e ∈ g.children x := by
    intro x e he
    rw [← enter_unlink hrest]
    exact mem_enter.mpr (.inr he)
  have hkind : ∀ j, j ≠ i → (g.unlink d i rest).kind j = g.kind j :=
    fun j hj => unlink_kind_of_ne hj
  have hself : (g.unlink d i rest).kind i = if g.refs i = 1 then none else some .file := by
    simp only [LinkGraph.unlink]
    split
    · exact Function.update_self ..
    · exact hi
  have hdir : ∀ {j}, g.kind j = some .dir → j ≠ i := by
    rintro j hj rfl
    rw [hi] at hj
    cases hj
  -- Nothing comes to life: what is there afterwards was there before, of the same kind.
  have hold : ∀ {j k}, (g.unlink d i rest).kind j = some k → g.kind j = some k := by
    intro j k hj
    by_cases hji : j = i
    · subst hji
      rw [hself] at hj
      split at hj
      · cases hj
      · rwa [hi]
    · rwa [hkind j hji] at hj
  have hrefs : ∀ j, j ≠ i → (g.unlink d i rest).refs j = g.refs j :=
    fun j hj => Function.update_of_ne hj ..
  have hother : ∀ x, x ≠ d → (g.unlink d i rest).children x = g.children x :=
    fun x hx => Function.update_of_ne hx ..
  constructor
  case root_dir => rw [hkind root (hdir h.root_dir), h.root_dir]
  case live =>
    intro j hj
    obtain ⟨k, hk⟩ := Option.ne_none_iff_exists'.mp hj
    exact h.live j (by simp [hold hk])
  case source =>
    intro x hx
    have hxd : x ≠ d := by
      rintro rfl
      exact hx (by rw [hkind x (hdir hd), hd])
    have hx' : g.kind x ≠ some .dir := fun hx' => hx (by rw [hkind x (hdir hx'), hx'])
    rw [hother x hxd, h.source x hx']
  case target =>
    intro x e he
    by_cases hei : e.2 = i
    · -- an entry that still names the file is a second link to it
      have hx : g.kind x = some .dir := h.dir_of_mem (hsubset he)
      have hpos : 1 ≤ links nodes (g.unlink d i rest).children i := by
        apply links_pos (h.live x (by simp [hx]))
        rw [← hei]
        exact he
      have hcount := hlinks i
      have hrefs_i := h.file_refs i hi
      rw [if_pos rfl] at hcount
      have hlast : g.refs i ≠ 1 := by omega
      rw [hei, hself, if_neg hlast]
      simp
    · rw [hkind e.2 hei]
      exact h.target x e (hsubset he)
  case names =>
    intro x
    -- The entries are a part of what they were, so the names stay distinct.
    have hle : (g.unlink d i rest).children x ≤ g.children x := by
      by_cases hx : x = d
      · subst hx
        have hself : (g.unlink x i rest).children x = rest := Function.update_self ..
        rw [hrest, hself]
        exact Multiset.le_cons_self _ _
      · rw [hother x hx]
    exact Multiset.nodup_of_le (Multiset.map_le_map hle) (h.names x)
  case file_refs =>
    intro j hj
    have hj' := hold hj
    have hcount := hlinks j
    have hrefs_j := h.file_refs j hj'
    by_cases hji : j = i
    · subst hji
      have hrefs_self : (g.unlink d j rest).refs j = g.refs j - 1 := Function.update_self ..
      rw [if_pos rfl] at hcount
      omega
    · rw [if_neg (Ne.symm hji)] at hcount
      rw [hrefs j hji]
      omega
  case file_linked =>
    intro j hj
    have hj' := hold hj
    have hcount := hlinks j
    have hpos := h.file_linked j hj'
    by_cases hji : j = i
    · subst hji
      -- The file is still there, so the link taken was not the last one.
      have hlast : g.refs j ≠ 1 := by
        intro hlast
        rw [hself, if_pos hlast] at hj
        cases hj
      have hrefs_j := h.file_refs j hj'
      rw [if_pos rfl] at hcount
      omega
    · rw [if_neg (Ne.symm hji)] at hcount
      omega
  case dir_refs =>
    intro j hj
    have hj' := hold hj
    -- The entry that goes named a file, which `subdirs` does not count.
    have hsub : g.subdirs j = (g.unlink d i rest).subdirs j := by
      have hkind' : ∀ e ∈ (g.unlink d i rest).children j,
          g.kind e.2 = some .dir ↔ (g.unlink d i rest).kind e.2 = some .dir := by
        intro e _
        constructor
        · intro hdir'
          rw [hkind e.2 (hdir hdir'), hdir']
        · exact hold
      have hcount := @subdirs_enter _ _ _ _ d i n _ _ hkind'
      rw [enter_unlink hrest, hi] at hcount
      simpa [subdirs] using hcount
    rw [hrefs j (hdir hj'), h.dir_refs j hj', hsub]
  case dir_links =>
    intro j hj
    have hj' := hold hj
    have hcount := hlinks j
    rw [if_neg (hdir hj').symm, Nat.add_zero] at hcount
    rw [← hcount]
    exact h.dir_links j hj'
  case parent_root => exact h.parent_root
  case parent_link =>
    intro j hj hroot
    have hj' := hold hj
    obtain ⟨m, hm⟩ := h.parent_link j hj' hroot
    -- The link to a directory is not the entry taken, which named a file.
    rw [← enter_unlink hrest] at hm
    rcases mem_enter.mp hm with ⟨_, heq⟩ | hm
    · exact absurd (congrArg Prod.snd heq) (hdir hj')
    · exact ⟨m, hm⟩

end WellLinked

end Preservation

end LinkGraph

end OsLab
