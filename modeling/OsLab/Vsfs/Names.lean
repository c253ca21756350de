import OsLab.Lib.Path
import OsLab.Vsfs.Tree

/-!
# The name cache of VSFS

`files`, `dirs` and `nameToInum` are the workload generator's view of the tree. Entries of
`nameToInum` go stale when a file is unlinked; the paths in `files` and `dirs` are the ones it still
looks up. Each of them is entered in a directory of `dirs`, under the inode that the cache has for
it.

* **`dirPath`**, **`getParent_fullName`**, **`fullName_inj`** -- paths as strings: `getParent`
  undoes `fullName`, and no two names give one path.
* **`Entered`**, **`Paths`** -- the invariant of the cache.
* **`learn`**, **`enterFile`**, **`enterDir`**, **`unlink`** -- the changes that the operations make
  to it, and that the invariant stays.
-/

namespace OsLab.Vsfs

/-! ## Path strings -/

def ValidName (n : Str) : Prop := n ≠ [] ∧ '/' ∉ n

/-- The path string of a directory. -/
def dirPath (cs : List Str) : Str := if cs = [] then ['/'] else Path.render '/' cs

theorem render_ne_slash {cs : List Str} (h : ∀ c ∈ cs, ValidName c) :
    Path.render '/' cs ≠ ['/'] := by
  cases cs with
  | nil => simp
  | cons c cs =>
    rw [List.forall_mem_cons] at h
    simp [h.1.1]

/-- The full name of an entry is the path of its directory with one part more, also in the root. -/
theorem fullName_dirPath {cs : List Str} (h : ∀ c ∈ cs, ValidName c) (n : Str) :
    Fs.fullName (dirPath cs) n = Path.render '/' (cs ++ [n]) := by
  cases cs with
  | nil => simp [Fs.fullName, dirPath]
  | cons c cs =>
    have hdir : dirPath (c :: cs) = Path.render '/' (c :: cs) := if_neg (List.cons_ne_nil c cs)
    rw [hdir, Fs.fullName, if_neg (render_ne_slash h), Path.render_append]
    simp only [Path.render_cons, Path.render_nil, List.append_nil, List.append_assoc,
      List.cons_append, List.nil_append]

theorem dirPath_append (cs : List Str) (n : Str) :
    dirPath (cs ++ [n]) = Path.render '/' (cs ++ [n]) := by
  simp [dirPath]

theorem noSlash {cs : List Str} (h : ∀ c ∈ cs, ValidName c) : ∀ c ∈ cs, '/' ∉ c :=
  fun c hc => (h c hc).2

/-- Splitting a path at its slashes gives its parts, with an empty one in front. -/
theorem split_render {cs : List Str} (h : ∀ c ∈ cs, ValidName c) :
    split (Path.render '/' cs) '/' = [] :: cs :=
  Path.splitOn_render (noSlash h)

theorem foldl_components (cs : List Str) (s : Str) :
    cs.foldl (fun pname t => pname ++ ['/'] ++ t) s = s ++ Path.render '/' cs := by
  induction cs generalizing s with
  | nil => simp
  | cons c cs ih =>
    rw [List.foldl_cons, ih, Path.render_cons]
    simp only [List.append_assoc, List.cons_append, List.nil_append]

/-- A valid name behind valid names. -/
theorem validName_snoc {cs : List Str} (hcs : ∀ c ∈ cs, ValidName c) {n : Str} (hn : ValidName n) :
    ∀ c ∈ cs ++ [n], ValidName c := by
  rw [List.forall_mem_append]
  exact ⟨hcs, by simpa using hn⟩

/-- `getParent` undoes `fullName`: it puts together all parts but the last. -/
theorem getParent_fullName {cs : List Str} (hcs : ∀ c ∈ cs, ValidName c) {n : Str}
    (hn : ValidName n) : Fs.getParent (Fs.fullName (dirPath cs) n) = dirPath cs := by
  have hsplit := split_render (validName_snoc hcs hn)
  rw [fullName_dirPath hcs, Fs.getParent, hsplit]
  cases cs with
  | nil => simp [dirPath]
  | cons c cs =>
    have hlen : ([] :: (c :: cs ++ [n])).length ≠ 2 := by simp
    have htake : (([] :: (c :: cs ++ [n])).drop 1).take (([] :: (c :: cs ++ [n])).length - 2) =
        c :: cs := by
      simp
    simp only [hlen, if_false, htake, foldl_components, List.nil_append]
    exact (if_neg (List.cons_ne_nil c cs)).symm

/-- A full name determines the directory and the name. -/
theorem fullName_inj {cs ds : List Str} (hcs : ∀ c ∈ cs, ValidName c)
    (hds : ∀ d ∈ ds, ValidName d) {n m : Str} (hn : ValidName n) (hm : ValidName m)
    (h : Fs.fullName (dirPath cs) n = Fs.fullName (dirPath ds) m) : cs = ds ∧ n = m := by
  rw [fullName_dirPath hcs, fullName_dirPath hds] at h
  have hall : cs ++ [n] = ds ++ [m] := by
    apply Path.render_injective _ _ h
    · simpa [or_imp, forall_and, hn.2] using noSlash hcs
    · simpa [or_imp, forall_and, hm.2] using noSlash hds
  obtain ⟨hcsds, hnm⟩ := List.append_inj' hall rfl
  exact ⟨hcsds, by simpa using hnm⟩

/-- The names along a path. -/
def components (p : Str) : List Str := (split p '/').filter (· ≠ [])

/-- The names along the path of a directory are the ones it was put together from. -/
theorem components_dirPath {cs : List Str} (h : ∀ c ∈ cs, ValidName c) :
    components (dirPath cs) = cs := by
  cases cs with
  | nil => decide
  | cons c cs =>
    have hfilter : (c :: cs).filter (fun d => decide (d ≠ [])) = c :: cs := by
      rw [List.filter_eq_self]
      intro d hd
      simpa using (h d hd).1
    rw [components, dirPath, if_neg (List.cons_ne_nil c cs), split_render h, List.filter_cons]
    simpa using hfilter

/-! ## The cache -/

/-- The path `p` is entered as `i` in a directory that `dirs` lists. -/
def Entered (s : Fs) (g : LinkGraph Nat Str) (p : Str) (i : Nat) : Prop :=
  ∃ q n j, q ∈ s.dirs ∧ ValidName n ∧ p = Fs.fullName q n ∧ s.nameToInum q = some j ∧
    (n, i) ∈ g.children j

structure Paths (s : Fs) (g : LinkGraph Nat Str) : Prop where
  root_mem : ['/'] ∈ s.dirs
  root_name : s.nameToInum ['/'] = some ROOT
  form : ∀ p ∈ s.dirs, ∃ cs, (∀ c ∈ cs, ValidName c) ∧ p = dirPath cs
  dirs : ∀ p ∈ s.dirs, ∃ i, s.nameToInum p = some i ∧ g.kind i = some .dir ∧
    (p = ['/'] ∨ Entered s g p i)
  files : ∀ p ∈ s.files, ∃ i, s.nameToInum p = some i ∧ g.kind i = some .file ∧ Entered s g p i
  inj : ∀ p ∈ s.dirs, ∀ q ∈ s.dirs, s.nameToInum p = s.nameToInum q → p = q
  files_nodup : s.files.Nodup

namespace Paths

variable {s : Fs} {g g' : LinkGraph Nat Str} {q n : Str} {i j : Nat}

/-- The same for directories that are listed. -/
theorem fullName_inj (h : Paths s g) {q' n' : Str} (hq : q ∈ s.dirs) (hq' : q' ∈ s.dirs)
    (hn : ValidName n) (hn' : ValidName n') (heq : Fs.fullName q n = Fs.fullName q' n') :
    q = q' ∧ n = n' := by
  obtain ⟨cs, hcs, rfl⟩ := h.form q hq
  obtain ⟨ds, hds, rfl⟩ := h.form q' hq'
  obtain ⟨rfl, rfl⟩ := Vsfs.fullName_inj hcs hds hn hn' heq
  exact ⟨rfl, rfl⟩

theorem fullName_ne_slash (h : Paths s g) (hq : q ∈ s.dirs) (hn : ValidName n) :
    Fs.fullName q n ≠ ['/'] := by
  obtain ⟨cs, hcs, rfl⟩ := h.form q hq
  rw [fullName_dirPath hcs]
  exact render_ne_slash (validName_snoc hcs hn)

/-- A name that is free in its directory gives a path that is not listed yet. -/
theorem not_entered (h : Paths s g) (hq : q ∈ s.dirs) (hn : ValidName n)
    (hj : s.nameToInum q = some j) (hfree : ∀ e ∈ g.children j, e.1 ≠ n) (k : Nat) :
    ¬ Entered s g (Fs.fullName q n) k := by
  rintro ⟨q', n', j', hq', hn', heq, hj', hmem⟩
  obtain ⟨rfl, rfl⟩ := h.fullName_inj hq hq' hn hn' heq
  obtain rfl : j = j' := Option.some.inj (hj.symm.trans hj')
  exact hfree _ hmem rfl

theorem not_mem_dirs (h : Paths s g) (hq : q ∈ s.dirs) (hn : ValidName n)
    (hj : s.nameToInum q = some j) (hfree : ∀ e ∈ g.children j, e.1 ≠ n) :
    Fs.fullName q n ∉ s.dirs := by
  intro hmem
  obtain ⟨k, _, _, hroot | hentered⟩ := h.dirs _ hmem
  · exact h.fullName_ne_slash hq hn hroot
  · exact h.not_entered hq hn hj hfree k hentered

theorem not_mem_files (h : Paths s g) (hq : q ∈ s.dirs) (hn : ValidName n)
    (hj : s.nameToInum q = some j) (hfree : ∀ e ∈ g.children j, e.1 ≠ n) :
    Fs.fullName q n ∉ s.files := by
  intro hmem
  obtain ⟨k, _, _, hentered⟩ := h.files _ hmem
  exact h.not_entered hq hn hj hfree k hentered

/-- The caller's new entry: the cache learns the path, and everything known stays known. -/
def learn (s : Fs) (p : Str) (i : Nat) : Fs :=
  { s with nameToInum := Function.update s.nameToInum p (some i) }

/-- What was entered stays so when the cache learns another path. -/
theorem entered_learn {p : Str} (hp : p ∉ s.dirs) (hchildren : ∀ j, g.children j ⊆ g'.children j)
    {dirs : List Str} (hdirs : s.dirs ⊆ dirs) {r : Str} {k : Nat} (h : Entered s g r k) :
    Entered { learn s p i with dirs := dirs } g' r k := by
  obtain ⟨q, n, j, hq, hn, hr, hj, hmem⟩ := h
  have hne : q ≠ p := by
    rintro rfl
    exact hp hq
  refine ⟨q, n, j, hdirs hq, hn, hr, ?_, hchildren j hmem⟩
  simpa [learn, hne] using hj

theorem learn_of_ne {p r : Str} (hp : p ≠ r) : (learn s r i).nameToInum p = s.nameToInum p :=
  Function.update_of_ne hp ..

section Learn

variable {r : Str} {dirs : List Str}

/-- What is known of the old directories stays known. -/
theorem learn_dirs (h : Paths s g) (hr : r ∉ s.dirs) (hchildren : ∀ k, g.children k ⊆ g'.children k)
    (hkind : ∀ k, g.kind k ≠ none → g'.kind k = g.kind k) (hdirs : s.dirs ⊆ dirs) :
    ∀ p ∈ s.dirs, ∃ k, (learn s r i).nameToInum p = some k ∧ g'.kind k = some .dir ∧
      (p = ['/'] ∨ Entered { learn s r i with dirs := dirs } g' p k) := by
  intro p hp
  obtain ⟨k, hk, hdir, hin⟩ := h.dirs p hp
  have hne : p ≠ r := fun heq => hr (heq ▸ hp)
  exact ⟨k, (learn_of_ne hne).trans hk, (hkind k (by simp [hdir])).trans hdir,
    hin.imp id (entered_learn hr hchildren hdirs)⟩

/-- What is known of the old files stays known. -/
theorem learn_files (h : Paths s g) (hr : r ∉ s.dirs) (hr' : r ∉ s.files)
    (hchildren : ∀ k, g.children k ⊆ g'.children k)
    (hkind : ∀ k, g.kind k ≠ none → g'.kind k = g.kind k) (hdirs : s.dirs ⊆ dirs) :
    ∀ p ∈ s.files, ∃ k, (learn s r i).nameToInum p = some k ∧ g'.kind k = some .file ∧
      Entered { learn s r i with dirs := dirs } g' p k := by
  intro p hp
  obtain ⟨k, hk, hfile, hin⟩ := h.files p hp
  have hne : p ≠ r := fun heq => hr' (heq ▸ hp)
  exact ⟨k, (learn_of_ne hne).trans hk, (hkind k (by simp [hfile])).trans hfile,
    entered_learn hr hchildren hdirs hin⟩

end Learn

/-- A new entry for a file is listed, and everything else as before. -/
theorem enterFile (h : Paths s g) (hq : q ∈ s.dirs) (hn : ValidName n)
    (hj : s.nameToInum q = some j) (hfree : ∀ e ∈ g.children j, e.1 ≠ n)
    (hchildren : ∀ k, g.children k ⊆ g'.children k) (hmem : (n, i) ∈ g'.children j)
    (hkind : ∀ k, g.kind k ≠ none → g'.kind k = g.kind k) (hi : g'.kind i = some .file) :
    Paths { learn s (Fs.fullName q n) i with files := s.files ++ [Fs.fullName q n] } g' := by
  have hdirs := h.not_mem_dirs hq hn hj hfree
  have hfiles := h.not_mem_files hq hn hj hfree
  have hdname : ∀ p ∈ s.dirs, (learn s (Fs.fullName q n) i).nameToInum p = s.nameToInum p :=
    fun p hp => learn_of_ne fun heq => hdirs (heq ▸ hp)
  constructor
  case root_mem => exact h.root_mem
  case root_name => exact (hdname _ h.root_mem).trans h.root_name
  case form => exact h.form
  case dirs => exact h.learn_dirs hdirs hchildren hkind (List.Subset.refl _)
  case files =>
    intro p hp
    rcases List.mem_append.mp hp with hp | hp
    · exact h.learn_files hdirs hfiles hchildren hkind (List.Subset.refl _) p hp
    · obtain rfl := List.mem_singleton.mp hp
      exact ⟨i, Function.update_self .., hi, q, n, j, hq, hn, rfl, (hdname q hq).trans hj, hmem⟩
  case inj =>
    intro p hp r hr heq
    exact h.inj p hp r hr ((hdname p hp).symm.trans (heq.trans (hdname r hr)))
  case files_nodup =>
    exact List.nodup_append.mpr ⟨h.files_nodup, List.nodup_singleton _, by
      rintro p hp r hr rfl
      exact hfiles (List.mem_singleton.mp hr ▸ hp)⟩

/-- A new directory is listed with its own inode, and everything else as before. -/
theorem enterDir (h : Paths s g) (hq : q ∈ s.dirs) (hn : ValidName n)
    (hj : s.nameToInum q = some j) (hfree : ∀ e ∈ g.children j, e.1 ≠ n)
    (hchildren : ∀ k, g.children k ⊆ g'.children k) (hmem : (n, i) ∈ g'.children j)
    (hkind : ∀ k, g.kind k ≠ none → g'.kind k = g.kind k) (hnew : g.kind i = none)
    (hi : g'.kind i = some .dir) :
    Paths { learn s (Fs.fullName q n) i with dirs := s.dirs ++ [Fs.fullName q n] } g' := by
  have hdirs := h.not_mem_dirs hq hn hj hfree
  have hfiles := h.not_mem_files hq hn hj hfree
  have hsub : s.dirs ⊆ s.dirs ++ [Fs.fullName q n] := List.subset_append_left _ _
  have hdname : ∀ p ∈ s.dirs, (learn s (Fs.fullName q n) i).nameToInum p = s.nameToInum p :=
    fun p hp => learn_of_ne fun heq => hdirs (heq ▸ hp)
  have hself : (learn s (Fs.fullName q n) i).nameToInum (Fs.fullName q n) = some i :=
    Function.update_self ..
  have hsplit : ∀ p ∈ s.dirs ++ [Fs.fullName q n], p ∈ s.dirs ∨ p = Fs.fullName q n := by
    intro p hp
    simpa using hp
  -- the old directories have used inodes, the new one had a free one
  have hfresh : ∀ p ∈ s.dirs, (learn s (Fs.fullName q n) i).nameToInum p ≠ some i := by
    intro p hp heq
    obtain ⟨k, hk, hdir, _⟩ := h.dirs p hp
    obtain rfl : k = i := Option.some.inj (hk.symm.trans ((hdname p hp).symm.trans heq))
    rw [hnew] at hdir
    cases hdir
  constructor
  case root_mem => exact List.mem_append_left _ h.root_mem
  case root_name => exact (hdname _ h.root_mem).trans h.root_name
  case form =>
    intro p hp
    rcases hsplit p hp with hp | rfl
    · exact h.form p hp
    · obtain ⟨cs, hcs, rfl⟩ := h.form q hq
      exact ⟨cs ++ [n], validName_snoc hcs hn, by rw [fullName_dirPath hcs, dirPath_append]⟩
  case dirs =>
    intro p hp
    rcases hsplit p hp with hp | rfl
    · exact h.learn_dirs hdirs hchildren hkind hsub p hp
    · exact ⟨i, hself, hi, Or.inr
        ⟨q, n, j, List.mem_append_left _ hq, hn, rfl, (hdname q hq).trans hj, hmem⟩⟩
  case files => exact h.learn_files hdirs hfiles hchildren hkind hsub
  case inj =>
    intro p hp r hr heq
    rcases hsplit p hp with hp | rfl <;> rcases hsplit r hr with hr | rfl
    · exact h.inj p hp r hr ((hdname p hp).symm.trans (heq.trans (hdname r hr)))
    · exact absurd (heq.trans hself) (hfresh p hp)
    · exact absurd (heq.symm.trans hself) (hfresh r hr)
    · rfl
  case files_nodup => exact h.files_nodup

/-- An unlinked file: every other path keeps its entry, though the cache keeps the stale one too. -/
theorem unlink (h : Paths s g) (hq : q ∈ s.dirs)
    (hj : s.nameToInum q = some j) (hfile : Fs.fullName q n ∈ s.files)
    (hi : s.nameToInum (Fs.fullName q n) = some i) (hikind : g.kind i = some .file)
    {rest : Multiset (Str × Nat)} (hrest : g.children j = (n, i) ::ₘ rest)
    {nodes : Finset Nat} (hwl : LinkGraph.WellLinked nodes ROOT (g.unlink j i rest)) :
    Paths { s with files := s.files.erase (Fs.fullName q n) } (g.unlink j i rest) := by
  -- Only the entry that goes has this name in this directory.
  have hentered : ∀ {r k}, r ≠ Fs.fullName q n → Entered s g r k →
      Entered s (g.unlink j i rest) r k := by
    rintro r k hne ⟨q', n', j', hq', hn', rfl, hj', hmem⟩
    refine ⟨q', n', j', hq', hn', rfl, hj', ?_⟩
    rw [← LinkGraph.enter_unlink hrest, LinkGraph.mem_enter] at hmem
    rcases hmem with ⟨rfl, heq⟩ | hmem
    · obtain rfl : q' = q := h.inj q' hq' q hq (hj'.trans hj.symm)
      exact absurd (by rw [(Prod.mk.inj heq).1]) hne
    · exact hmem
  -- What is still entered somewhere is still there.
  have hkind : ∀ {r k}, Entered s (g.unlink j i rest) r k →
      (g.unlink j i rest).kind k = g.kind k := by
    rintro r k ⟨q', n', j', _, _, _, _, hmem⟩
    exact LinkGraph.unlink_kind (hwl.target j' _ hmem)
  constructor
  case root_mem => exact h.root_mem
  case root_name => exact h.root_name
  case form => exact h.form
  -- A directory is not the file that is unlinked.
  case dirs =>
    intro p hp
    obtain ⟨k, hk, hdir, hin⟩ := h.dirs p hp
    have hki : k ≠ i := by
      rintro rfl
      rw [hikind] at hdir
      cases hdir
    refine ⟨k, hk, (LinkGraph.unlink_kind_of_ne hki).trans hdir, hin.imp id fun hin => ?_⟩
    apply hentered _ hin
    rintro rfl
    exact hki (Option.some.inj (hk.symm.trans hi))
  case files =>
    intro p hp
    obtain ⟨hne, hp⟩ := h.files_nodup.mem_erase_iff.mp hp
    obtain ⟨k, hk, hfile, hin⟩ := h.files p hp
    have hin' := hentered hne hin
    exact ⟨k, hk, (hkind hin').trans hfile, hin'⟩
  case inj => exact h.inj
  case files_nodup => exact h.files_nodup.erase _

theorem congr (h : Paths s g) {t : Fs} (hfiles : t.files = s.files) (hdirs : t.dirs = s.dirs)
    (hname : t.nameToInum = s.nameToInum) : Paths t g := by
  obtain ⟨_, files, dirs, nameToInum⟩ := s
  obtain ⟨_, files', dirs', nameToInum'⟩ := t
  obtain rfl : files' = files := hfiles
  obtain rfl : dirs' = dirs := hdirs
  obtain rfl : nameToInum' = nameToInum := hname
  exact ⟨h.root_mem, h.root_name, h.form, h.dirs, h.files, h.inj, h.files_nodup⟩

end Paths

end OsLab.Vsfs
