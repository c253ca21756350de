import OsLab.Lib.Walks

/-!
# The paths of a link graph

The entries lead from the root to every file and directory. A directory has one path; a file has one
for each way to an entry of it. Every operation adds or takes away one path.

* **`Leads`** -- some names lead from the root to a node, through entries alone. `walks_iff_leads`
  relates this to walks that may also use `dot` and `dotdot`.
* **`Leads.path_unique`** -- a directory has one path. The induction is on the path; it rests on the
  one entry that a directory has.
* **`pathsTo`** -- the paths to nodes of a kind. `pathsTo_addFile`, `pathsTo_addDir`,
  `pathsTo_addLink` and `pathsTo_unlink` say how each edit changes them.
-/

namespace OsLab.LinkGraph

variable {ν κ : Type*} {g g' : LinkGraph ν κ} {nodes : Finset ν} {root d i j : ν} {n : κ}
  {ns ms : List κ}

/-- The entries `ns` lead from the root to a node. -/
inductive Leads (g : LinkGraph ν κ) (root : ν) : List κ → ν → Prop where
  | root : Leads g root [] root
  | entry {ns : List κ} {d : ν} {n : κ} {i : ν} (before : Leads g root ns d)
      (last : (n, i) ∈ g.children d) : Leads g root (ns ++ [n]) i

/-- No names lead to the root, and nowhere else. -/
theorem leads_nil : g.Leads root [] i ↔ i = root := by
  constructor
  · generalize hns : ([] : List κ) = ns
    intro h
    cases h with
    | root => rfl
    | entry before last => exact absurd hns.symm (by simp)
  · rintro rfl
    exact .root

/-- A path to a node goes through the directory that holds its last name. -/
theorem leads_snoc : g.Leads root (ns ++ [n]) i ↔ ∃ d, g.Leads root ns d ∧ (n, i) ∈ g.children d := by
  constructor
  · generalize hms : ns ++ [n] = ms
    intro h
    cases h with
    | root => simp at hms
    | entry before last =>
      obtain ⟨rfl, heq⟩ := List.append_inj' hms rfl
      obtain rfl := List.singleton_inj.mp heq
      exact ⟨_, before, last⟩
  · rintro ⟨d, before, last⟩
    exact .entry before last

/-! ## Paths and walks -/

/-- A walk is a walk to its last directory and one name more. -/
theorem walks_snoc {dot dotdot : κ} {q : ν} :
    g.Walks dot dotdot d (ns ++ [n]) q ↔
      ∃ j, g.Walks dot dotdot d ns j ∧ g.Resolves dot dotdot j n q := by
  induction ns generalizing d with
  | nil =>
    constructor
    · rintro ⟨j, hstep, rfl⟩
      exact ⟨d, rfl, hstep⟩
    · rintro ⟨_, rfl, hstep⟩
      exact ⟨q, hstep, rfl⟩
  | cons m ns ih =>
    constructor
    · rintro ⟨j, hstep, hrest⟩
      obtain ⟨x, hx, hlast⟩ := ih.mp hrest
      exact ⟨x, ⟨j, hstep, hx⟩, hlast⟩
    · rintro ⟨x, ⟨j, hstep, hx⟩, hlast⟩
      exact ⟨j, hstep, ih.mpr ⟨x, hx, hlast⟩⟩

/-- Without `dot` and `dotdot` among its names a walk from the root is a path. -/
theorem walks_iff_leads {dot dotdot : κ} (hdir : ∀ d, ∀ e ∈ g.children d, g.kind d = some .dir)
    (hns : ∀ n ∈ ns, n ≠ dot ∧ n ≠ dotdot) :
    g.Walks dot dotdot root ns i ↔ g.Leads root ns i := by
  induction ns using List.reverseRecOn generalizing i with
  | nil => exact eq_comm.trans leads_nil.symm
  | append_singleton ns n ih =>
    rw [List.forall_mem_append] at hns
    obtain ⟨hns, hn⟩ := hns
    have hn' := hn n (List.mem_singleton_self n)
    rw [walks_snoc, leads_snoc]
    refine exists_congr fun d => and_congr (ih hns) ?_
    constructor
    · rintro ⟨_, ⟨hdot, _⟩ | ⟨hdotdot, _⟩ | hmem⟩
      · exact absurd hdot hn'.1
      · exact absurd hdotdot hn'.2
      · exact hmem
    · intro hmem
      exact ⟨hdir d _ hmem, .inr (.inr hmem)⟩

/-! ## The node of a path -/

/-- Entries of one name in a directory lead to one node. -/
theorem entry_unique (hnames : ((g.children d).map Prod.fst).Nodup) (hi : (n, i) ∈ g.children d)
    (hj : (n, j) ∈ g.children d) : i = j :=
  congrArg Prod.snd (Multiset.inj_on_of_nodup_map hnames _ hi _ hj rfl)

section Paths

variable [DecidableEq ν]

/-- A path leads to one node, since the names of each directory differ. -/
theorem Leads.unique (h : WellLinked nodes root g) (hi : g.Leads root ns i)
    (hj : g.Leads root ns j) : i = j := by
  induction hi generalizing j with
  | root => exact (leads_nil.mp hj).symm
  | @entry ns d n i _ last ih =>
    obtain ⟨d', before', last'⟩ := leads_snoc.mp hj
    obtain rfl := ih before'
    exact entry_unique (h.names d) last last'

/-- What a path leads to is in use: the root, or a node with an entry. -/
theorem Leads.live (h : WellLinked nodes root g) (hi : g.Leads root ns i) : g.kind i ≠ none := by
  cases hi with
  | root => simp [h.root_dir]
  | entry _ last => exact h.target _ _ last

/-- No path leads to a free node. -/
theorem Leads.ne_of_free (h : WellLinked nodes root g) (hj : g.Leads root ns j)
    (hi : g.kind i = none) : j ≠ i := by
  rintro rfl
  exact hj.live h hi

/-! ## A directory has one path -/

/-- Two entries that name one directory are the same entry, in the same directory and under the same
name. -/
theorem WellLinked.entry_of_dir (h : WellLinked nodes root g) (hi : g.kind i = some .dir) {d' : ν}
    {n' : κ} (he : (n, i) ∈ g.children d) (he' : (n', i) ∈ g.children d') : d = d' ∧ n = n' := by
  have hlinks := h.dir_links i hi
  have hlive : ∀ {x : ν} {e : κ × ν}, e ∈ g.children x → x ∈ nodes := fun hx =>
    h.live _ (by simp [h.dir_of_mem hx])
  have hone : links nodes g.children i ≤ 1 := by
    rw [hlinks]
    split <;> omega
  have hcount : ∀ {x : ν} {m : κ}, (m, i) ∈ g.children x →
      1 ≤ (g.children x).countP fun e => e.2 = i :=
    fun hx => Multiset.countP_pos.mpr ⟨_, hx, rfl⟩
  have hd : d = d' := by
    by_contra hne
    have htwo : (g.children d).countP (fun e => e.2 = i) +
        (g.children d').countP (fun e => e.2 = i) ≤ links nodes g.children i := by
      calc _ = ∑ x ∈ {d, d'}, (g.children x).countP fun e => e.2 = i :=
            (Finset.sum_pair hne).symm
        _ ≤ _ := Finset.sum_le_sum_of_subset (by
            intro x hx
            rcases Finset.mem_insert.mp hx with rfl | hx
            · exact hlive he
            · exact Finset.mem_singleton.mp hx ▸ hlive he')
    have := hcount he
    have := hcount he'
    omega
  subst hd
  refine ⟨rfl, ?_⟩
  by_contra hne
  -- both entries are in one directory and name `i`
  obtain ⟨rest, hrest⟩ := Multiset.exists_cons_of_mem he
  have hmem : (n', i) ∈ rest := by
    rw [hrest] at he'
    exact (Multiset.mem_cons.mp he').resolve_left fun heq => hne (congrArg Prod.fst heq).symm
  have hpos : 1 ≤ rest.countP fun e => e.2 = i := Multiset.countP_pos.mpr ⟨_, hmem, rfl⟩
  have hle : (g.children d).countP (fun e => e.2 = i) ≤ links nodes g.children i :=
    Finset.single_le_sum (f := fun x => (g.children x).countP fun e => e.2 = i)
      (fun _ _ => Nat.zero_le _) (hlive he)
  rw [hrest, Multiset.countP_cons_of_pos (p := fun e : κ × ν => e.2 = i) rest rfl] at hle
  omega

/-- The root is entered nowhere, so no path comes back to it. -/
theorem WellLinked.ne_root (h : WellLinked nodes root g) (he : (n, i) ∈ g.children d) :
    i ≠ root := by
  rintro rfl
  have hlinks := h.dir_links i h.root_dir
  rw [if_pos rfl] at hlinks
  have hpos := links_pos (h.live d (by simp [h.dir_of_mem he])) he
  omega

/-- A directory has one path. -/
theorem Leads.path_unique (h : WellLinked nodes root g) (hd : g.kind d = some .dir)
    (hns : g.Leads root ns d) (hms : g.Leads root ms d) : ns = ms := by
  induction hns generalizing ms with
  | root =>
    cases hms with
    | root => rfl
    | entry _ last => exact absurd rfl (h.ne_root last)
  | @entry ns d' n d before last ih =>
    cases hms with
    | root => exact absurd rfl (h.ne_root last)
    | @entry ms d'' n' _ before' last' =>
      obtain ⟨rfl, rfl⟩ := h.entry_of_dir hd last last'
      rw [ih (h.dir_of_mem last) before']

/-! ## One operation, one path -/

/-- A new entry of a node without entries gives it one more path and leaves all others. -/
theorem leads_enter (h : WellLinked nodes root g) (hd : g.kind d = some .dir)
    (hns : g.Leads root ns d) (hi : g.children i = 0) (hne : i ≠ d)
    (hchildren : g'.children = g.enter d n i) :
    g'.Leads root ms j ↔ g.Leads root ms j ∨ ms = ns ++ [n] ∧ j = i := by
  have hkeep : ∀ {ms : List κ} {j : ν}, g.Leads root ms j → g'.Leads root ms j := by
    intro ms j hj
    induction hj with
    | root => exact .root
    | entry _ last ih => exact .entry ih (hchildren ▸ mem_enter.mpr (.inr last))
  constructor
  · intro hj
    induction hj with
    | root => exact .inl .root
    | @entry ms x m j before last ih =>
      rw [hchildren, mem_enter] at last
      rcases last with ⟨rfl, heq⟩ | last
      · obtain ⟨rfl, rfl⟩ := Prod.mk.inj heq
        -- the path to the directory is the old one
        rcases ih with hold | ⟨_, hx⟩
        · exact .inr ⟨by rw [hold.path_unique h hd hns], rfl⟩
        · exact absurd hx hne.symm
      · rcases ih with hold | ⟨_, rfl⟩
        · exact .inl (.entry hold last)
        · rw [hi] at last
          exact absurd last (Multiset.notMem_zero _)
  · rintro (hj | ⟨rfl, rfl⟩)
    · exact hkeep hj
    · exact .entry (hkeep hns) (hchildren ▸ mem_enter.mpr (.inl ⟨rfl, rfl⟩))

/-- Removing the entry of a file takes one path away and no other, since nothing lies below a
file. -/
theorem leads_unlink (h : WellLinked nodes root g) (hi : g.kind i = some .file)
    (hns : g.Leads root ns d) {rest : Multiset (κ × ν)} (hrest : g.children d = (n, i) ::ₘ rest) :
    (g.unlink d i rest).Leads root ms j ↔ g.Leads root ms j ∧ ms ≠ ns ++ [n] := by
  have hd : g.kind d = some .dir := h.dir_of_mem (e := (n, i)) (by simp [hrest])
  have hmem : ∀ {x : ν} {e : κ × ν},
      e ∈ g.children x ↔ (x = d ∧ e = (n, i)) ∨ e ∈ (g.unlink d i rest).children x := by
    intro x e
    rw [← enter_unlink hrest]
    exact mem_enter
  have hother : ∀ {x : ν} {m : κ} {j : ν},
      (m, j) ∈ (g.unlink d i rest).children x → x = d → m ≠ n := by
    rintro x m j hm rfl rfl
    have hnames := h.names x
    have hself : (g.unlink x i rest).children x = rest := Function.update_self ..
    rw [hself] at hm
    rw [hrest, Multiset.map_cons, Multiset.nodup_cons] at hnames
    exact hnames.1 (Multiset.mem_map.mpr ⟨_, hm, rfl⟩)
  have hold : ∀ {ms : List κ} {j : ν}, (g.unlink d i rest).Leads root ms j → g.Leads root ms j := by
    intro ms j hj
    induction hj with
    | root => exact .root
    | entry _ last ih => exact .entry ih (hmem.mpr (.inr last))
  constructor
  · intro hj
    refine ⟨hold hj, fun heq => ?_⟩
    subst heq
    obtain ⟨x, before, last⟩ := leads_snoc.mp hj
    exact hother last ((hold before).unique h hns) rfl
  · rintro ⟨hj, hne⟩
    induction hj with
    | root => exact .root
    | @entry ms x m j before last ih =>
      -- what has entries is no file, so the path before it is kept
      have hbefore : ms ≠ ns ++ [n] := by
        rintro rfl
        obtain ⟨y, hy, hlast⟩ := leads_snoc.mp before
        obtain rfl := hy.unique h hns
        have hxi : x = i := entry_unique (h.names y) hlast (by simp [hrest])
        rw [hxi] at last
        exact absurd (h.dir_of_mem last) (by simp [hi])
      rcases hmem.mp last with ⟨rfl, heq⟩ | last
      · obtain ⟨rfl, rfl⟩ := Prod.mk.inj heq
        exact absurd (by rw [before.path_unique h hd hns]) hne
      · exact .entry (ih hbefore) last

end Paths

/-! ## The paths to files and to directories -/

/-- The paths, other than the root's own, to nodes of the given kind. -/
def pathsTo (g : LinkGraph ν κ) (root : ν) (k : NodeKind) : Set (List κ) :=
  {ns | ns ≠ [] ∧ ∃ i, g.Leads root ns i ∧ g.kind i = some k}

variable {k : NodeKind} {p : List κ}

/-- Two graphs that lead to the same nodes but for one new path have the same paths to each kind but
for that one. -/
theorem pathsTo_insert (hleads : ∀ ms j, g'.Leads root ms j ↔ g.Leads root ms j ∨ ms = p ∧ j = i)
    (hkind : ∀ ms j, g.Leads root ms j → g'.kind j = g.kind j) (hi : g'.kind i = some k)
    (hp : p ≠ []) :
    g'.pathsTo root k = insert p (g.pathsTo root k) ∧
      ∀ k', k' ≠ k → g'.pathsTo root k' = g.pathsTo root k' := by
  constructor
  · ext ms
    constructor
    · rintro ⟨hne, j, hj, hk⟩
      rcases (hleads ms j).mp hj with hj | ⟨rfl, _⟩
      · exact .inr ⟨hne, j, hj, hkind ms j hj ▸ hk⟩
      · exact .inl rfl
    · rintro (rfl | ⟨hne, j, hj, hk⟩)
      · exact ⟨hp, i, (hleads ms i).mpr (.inr ⟨rfl, rfl⟩), hi⟩
      · exact ⟨hne, j, (hleads ms j).mpr (.inl hj), (hkind ms j hj).trans hk⟩
  · intro k' hk'
    ext ms
    constructor
    · rintro ⟨hne, j, hj, hk⟩
      rcases (hleads ms j).mp hj with hj | ⟨_, rfl⟩
      · exact ⟨hne, j, hj, hkind ms j hj ▸ hk⟩
      · exact absurd (Option.some.inj (hk.symm.trans hi)) hk'
    · rintro ⟨hne, j, hj, hk⟩
      exact ⟨hne, j, (hleads ms j).mpr (.inl hj), (hkind ms j hj).trans hk⟩

section Operations

variable [DecidableEq ν]

/-- A new file adds its path to those of files and changes none to a directory. -/
theorem pathsTo_addFile (h : WellLinked nodes root g) (hd : g.kind d = some .dir)
    (hns : g.Leads root ns d) (hi : g.kind i = none) :
    (g.addFile d n i).pathsTo root .file = insert (ns ++ [n]) (g.pathsTo root .file) ∧
      (g.addFile d n i).pathsTo root .dir = g.pathsTo root .dir := by
  have hnone := h.source i (by simp [hi])
  have hne : i ≠ d := (ne_of_kind hd (by simp [hi])).symm
  obtain ⟨hsame, hother⟩ := @pathsTo_insert ν κ g (g.addFile d n i) root i .file (ns ++ [n])
    (fun ms j => leads_enter h hd hns hnone hne rfl)
    (fun ms j hj => Function.update_of_ne (hj.ne_of_free h hi) ..)
    (Function.update_self ..) (by simp)
  exact ⟨hsame, hother .dir (by simp)⟩

/-- A new directory adds its path to those of directories and changes none to a file. -/
theorem pathsTo_addDir (h : WellLinked nodes root g) (hd : g.kind d = some .dir)
    (hns : g.Leads root ns d) (hi : g.kind i = none) :
    (g.addDir d n i).pathsTo root .file = g.pathsTo root .file ∧
      (g.addDir d n i).pathsTo root .dir = insert (ns ++ [n]) (g.pathsTo root .dir) := by
  have hnone := h.source i (by simp [hi])
  have hne : i ≠ d := (ne_of_kind hd (by simp [hi])).symm
  obtain ⟨hsame, hother⟩ := @pathsTo_insert ν κ g (g.addDir d n i) root i .dir (ns ++ [n])
    (fun ms j => leads_enter h hd hns hnone hne rfl)
    (fun ms j hj => Function.update_of_ne (hj.ne_of_free h hi) ..)
    (Function.update_self ..) (by simp)
  exact ⟨hother .file (by simp), hsame⟩

/-- A new link adds a path to those of files, also though its file has others. -/
theorem pathsTo_addLink (h : WellLinked nodes root g) (hd : g.kind d = some .dir)
    (hns : g.Leads root ns d) (hi : g.kind i = some .file) :
    (g.addLink d n i).pathsTo root .file = insert (ns ++ [n]) (g.pathsTo root .file) ∧
      (g.addLink d n i).pathsTo root .dir = g.pathsTo root .dir := by
  have hnone := h.source i (by simp [hi])
  have hne : i ≠ d := (ne_of_kind hd (by simp [hi])).symm
  obtain ⟨hsame, hother⟩ := @pathsTo_insert ν κ g (g.addLink d n i) root i .file (ns ++ [n])
    (fun ms j => leads_enter h hd hns hnone hne rfl) (fun _ _ _ => rfl) hi (by simp)
  exact ⟨hsame, hother .dir (by simp)⟩

/-- A link that is removed takes its path from those to files, and no other path with it. -/
theorem pathsTo_unlink (h : WellLinked nodes root g) (hi : g.kind i = some .file)
    (hns : g.Leads root ns d) {rest : Multiset (κ × ν)} (hrest : g.children d = (n, i) ::ₘ rest) :
    (g.unlink d i rest).pathsTo root .file = g.pathsTo root .file \ {ns ++ [n]} ∧
      (g.unlink d i rest).pathsTo root .dir = g.pathsTo root .dir := by
  have hafter := h.unlink hi hrest
  have hkind : ∀ {ms : List κ} {j : ν}, (g.unlink d i rest).Leads root ms j →
      (g.unlink d i rest).kind j = g.kind j := fun hj => unlink_kind (hj.live hafter)
  have hgone : g.Leads root (ns ++ [n]) i := .entry hns (by simp [hrest])
  constructor
  · ext ms
    constructor
    · rintro ⟨hne, j, hj, hk⟩
      obtain ⟨hold, hms⟩ := (leads_unlink h hi hns hrest).mp hj
      exact ⟨⟨hne, j, hold, hkind hj ▸ hk⟩, hms⟩
    · rintro ⟨⟨hne, j, hj, hk⟩, hms⟩
      have hleft := (leads_unlink h hi hns hrest).mpr ⟨hj, hms⟩
      exact ⟨hne, j, hleft, (hkind hleft).trans hk⟩
  · ext ms
    constructor
    · rintro ⟨hne, j, hj, hk⟩
      exact ⟨hne, j, ((leads_unlink h hi hns hrest).mp hj).1, hkind hj ▸ hk⟩
    · rintro ⟨hne, j, hj, hk⟩
      have hms : ms ≠ ns ++ [n] := by
        rintro rfl
        obtain rfl := hj.unique h hgone
        rw [hi] at hk
        cases hk
      have hleft := (leads_unlink h hi hns hrest).mpr ⟨hj, hms⟩
      exact ⟨hne, j, hleft, (hkind hleft).trans hk⟩

end Operations

end OsLab.LinkGraph
