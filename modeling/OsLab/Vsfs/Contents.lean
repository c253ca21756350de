import OsLab.Lib.HardLinks
import OsLab.Vsfs.Steps

/-!
# What the files of VSFS show

A client follows a path from the root and reads the block of the inode it ends at. Seen so, the
simulator is a store of names for shared contents: `doCreate`, `doLink`, `doAppend` and `doDelete`
are its operations whenever they return 0, and do nothing otherwise.

* **`Store.resolve`**, **`Store.contentOf`**, **`Fs.view`** -- what the client sees, read from the
  disk and not from the name cache.
* **`contentOf_createdFile`** and its like -- no call changes what another file shows.
* **`view_create`**, **`view_link`**, **`view_write`**, **`view_unlink`** -- each call as an
  operation of the store of names.
* **`viewed_run`**, **`contents_kept`** -- the step and the run of the refinement, and what follows
  for a name that is not unlinked.
-/

namespace OsLab.Vsfs

/-! ## The view -/

/-- The inode that the path `p` leads to. -/
def Store.resolve (v : Store) (p : Str) : Option Nat := v.walk ROOT (components p)

/-- The data of inode `i`, if it has a block. -/
def Store.contentOf (v : Store) (i : Nat) : Option Str := do
  let inode ← v.inodes[i]?
  let b ← inode.addr
  let block ← v.data[b]?
  return block.data

/-- The files, which of their paths lead to the same inode, and what is read there. -/
def Fs.view (s : Fs) : HardLinks Str Str where
  names := s.files
  Linked p q := p ∈ s.files ∧ q ∈ s.files ∧ s.resolve p = s.resolve q
  content p := if p ∈ s.files then s.resolve p >>= s.contentOf else none

variable {s t : Fs} {g g' : LinkGraph Nat Str} {p q n : Str} {i j d b : Nat} {inode x y : Inode}
  {block : Block}

/-- The path of a listed file leads to the inode that the cache has for it. -/
theorem resolve_eq (h : Consistent s g) (hp : p ∈ s.files) : s.resolve p = s.nameToInum p := by
  obtain ⟨k, hname, hwalk⟩ := names_ok h (Or.inl hp)
  exact hwalk.trans hname.symm

/-- Two files are linked exactly if the cache has one inode for both. -/
theorem view_linked (h : Consistent s g) (p q : Str) :
    s.view.Linked p q ↔ p ∈ s.files ∧ q ∈ s.files ∧ s.nameToInum p = s.nameToInum q := by
  show p ∈ s.files ∧ q ∈ s.files ∧ s.resolve p = s.resolve q ↔ _
  refine and_congr_right fun hp => and_congr_right fun hq => ?_
  rw [resolve_eq h hp, resolve_eq h hq]

/-- A file shows what is in the block of its inode, and nothing if there is none. -/
theorem view_content (h : Consistent s g) (hp : p ∈ s.files) (hi : s.nameToInum p = some i) :
    s.view.content p = s.contentOf i := by
  show (if p ∈ s.files then s.resolve p >>= s.contentOf else none) = _
  rw [if_pos hp, resolve_eq h hp, hi]
  rfl

theorem view_content_of_not_mem (hp : p ∉ s.files) : s.view.content p = none := if_neg hp

/-- The view of a consistent state is well formed. -/
theorem view_wellFormed (h : Consistent s g) : s.view.WellFormed where
  nodup := h.paths.files_nodup
  refl p hp := ⟨hp, hp, rfl⟩
  symm p q hpq := ⟨hpq.2.1, hpq.1, hpq.2.2.symm⟩
  trans p q r hpq hqr := ⟨hpq.1, hqr.2.1, hpq.2.2.trans hqr.2.2⟩
  mem p q hpq := hpq.1
  same p q hpq := by
    obtain ⟨i, inode, hfile, _⟩ := h.exists_isFile hpq.1
    have hname := ((view_linked h p q).mp hpq).2.2
    rw [view_content h hpq.1 hfile.name, view_content h hpq.2.1 (hname.symm.trans hfile.name)]
  outside p hp := view_content_of_not_mem hp

/-! ## Contents that stay -/

theorem contentOf_none (hx : s.inodes[i]? = some x) (haddr : x.addr = none) :
    s.contentOf i = none := by
  show (s.inodes[i]? >>= fun inode => _) = none
  rw [hx]
  show (x.addr >>= fun b => _) = none
  rw [haddr]
  rfl

theorem contentOf_some (hx : s.inodes[i]? = some x) (haddr : x.addr = some b)
    (hb : s.data[b]? = some block) : s.contentOf i = some block.data := by
  show (s.inodes[i]? >>= fun inode => _) = _
  rw [hx]
  show (x.addr >>= fun b => _) = _
  rw [haddr]
  show (s.data[b]? >>= fun block => _) = _
  rw [hb]
  rfl

/-- A file with the address it had, whose block has not changed, shows what it did. -/
theorem contentOf_congr (hs : Storage s.toStore) (hx : s.inodes[i]? = some x)
    (hy : t.inodes[i]? = some y) (haddr : y.addr = x.addr)
    (hblock : ∀ c, x.addr = some c → t.data[c]? = s.data[c]?) : t.contentOf i = s.contentOf i := by
  cases hc : x.addr with
  | none => rw [contentOf_none hx hc, contentOf_none hy (haddr.trans hc)]
  | some c =>
    obtain ⟨block, hb, _⟩ := hs.addr_block i x c hx hc
    rw [contentOf_some hx hc hb, contentOf_some hy (haddr.trans hc) ((hblock c hc).trans hb)]

/-- The block of a file is no block of another type. -/
theorem IsFile.addr_ne (hs : Storage s.toStore) (hfile : IsFile s g p i inode)
    (hb : s.data[b]? = some block) (htype : block.ftype ≠ .f) {c : Nat}
    (hc : inode.addr = some c) : b ≠ c := by
  rintro rfl
  obtain ⟨block', hb', htype'⟩ := hs.addr_block i inode b hfile.inodes_eq hc
  obtain rfl := Option.some.inj (hb.symm.trans hb')
  exact htype (htype'.trans hfile.ftype)

/-- A change to a block that is no file's leaves the block of every file as it was. -/
theorem IsFile.data_kept (hs : Storage s.toStore) (hfile : IsFile s g p i inode)
    (hb : s.data[b]? = some block) (htype : block.ftype ≠ .f) (block' : Block) :
    ∀ c, inode.addr = some c → (s.data.set b block')[c]? = s.data[c]? := by
  intro c hc
  rw [List.getElem?_set_ne (hfile.addr_ne hs hb htype hc)]

/-- The inode of a file was in use. -/
theorem IsFile.ne_unused (hfile : IsFile s g p j inode) (hunused : ¬ s.InodeUsed i) : i ≠ j := by
  rintro rfl
  exact hunused ⟨inode, hfile.inodes_eq, hfile.live⟩

theorem IsDir.ne_file (hdir : IsDir s g q d inode b block) : block.ftype ≠ .f := by
  simp [hdir.dirBlock.ftype]

/-- A new file changes nothing that another file shows. -/
theorem contentOf_createdFile (h : Consistent s g) (hdir : IsDir s g q d inode b block)
    (hunused : ¬ s.InodeUsed i) (hfile : IsFile s g p j x) :
    (createdFile s i b block n).contentOf j = s.contentOf j := by
  refine contentOf_congr h.storage hfile.inodes_eq (y := x) ?_ rfl ?_
  · show (s.inodes.set i ⟨.f, none, 1⟩)[j]? = some x
    rw [List.getElem?_set_ne (hfile.ne_unused hunused), hfile.inodes_eq]
  · exact hfile.data_kept h.storage hdir.data_eq hdir.ne_file _

/-- Neither does a new directory. -/
theorem contentOf_createdDir (h : Consistent s g) (hdir : IsDir s g q d inode b block)
    (hunused : ¬ s.InodeUsed i) {fb : Nat} {fblock : Block} (hfb : s.data[fb]? = some fblock)
    (hfree : fblock.ftype = .free) (hfile : IsFile s g p j x) :
    (createdDir s i fb fblock d inode b block n).contentOf j = s.contentOf j := by
  have hfree' : fblock.ftype ≠ .f := by simp [hfree]
  refine contentOf_congr h.storage hfile.inodes_eq (y := x) ?_ rfl ?_
  · show ((s.inodes.set i ⟨.d, some fb, 2⟩).set d inode.incRefCnt)[j]? = some x
    rw [List.getElem?_set_ne (hfile.ne_dir hdir).symm,
      List.getElem?_set_ne (hfile.ne_unused hunused), hfile.inodes_eq]
  · intro c hc
    show ((s.data.set fb _).set b _)[c]? = _
    rw [List.getElem?_set_ne (hfile.addr_ne h.storage hdir.data_eq hdir.ne_file hc),
      List.getElem?_set_ne (hfile.addr_ne h.storage hfb hfree' hc)]

/-- Neither does a new name. -/
theorem contentOf_linked (h : Consistent s g) (hdir : IsDir s g q d inode b block)
    {tinode : Inode} {r : Str} (htarget : IsFile s g r i tinode) (hfile : IsFile s g p j x) :
    (linked s i tinode b block n).contentOf j = s.contentOf j := by
  have hinodes := getElem?_set_of_some htarget.inodes_eq tinode.incRefCnt j
  have hblock := hfile.data_kept h.storage hdir.data_eq hdir.ne_file (block.appendEntry n i)
  by_cases hij : i = j
  · -- only the count of the target changes
    subst hij
    obtain rfl := Option.some.inj (htarget.inodes_eq.symm.trans hfile.inodes_eq)
    rw [if_pos rfl] at hinodes
    exact contentOf_congr h.storage hfile.inodes_eq hinodes rfl hblock
  · rw [if_neg hij, hfile.inodes_eq] at hinodes
    exact contentOf_congr h.storage hfile.inodes_eq hinodes rfl hblock

/-- Data shows in the file that it was written to, and in no other. -/
theorem contentOf_written (h : Consistent s g) {r : Str} (htarget : IsFile s g r i inode)
    {fb : Nat} {fblock : Block} (hfb : s.data[fb]? = some fblock) (hfree : fblock.ftype = .free)
    (data : Str) (hfile : IsFile s g p j x) :
    (written s i inode fb fblock data).contentOf j =
      if i = j then some data else s.contentOf j := by
  have hinodes := getElem?_set_of_some htarget.inodes_eq { inode with addr := some fb } j
  split
  · rw [if_pos ‹_›] at hinodes
    have hdata := getElem?_set_of_some hfb (newDataBlock fblock data) fb
    rw [if_pos rfl] at hdata
    exact contentOf_some (s := written s i inode fb fblock data) hinodes rfl hdata
  · rw [if_neg ‹_›, hfile.inodes_eq] at hinodes
    have hfree' : fblock.ftype ≠ .f := by simp [hfree]
    exact contentOf_congr h.storage hfile.inodes_eq hinodes rfl
      (hfile.data_kept h.storage hfb hfree' _)

theorem getElem?_of_set {α : Type*} {xs : List α} {k : Nat} {a c : α}
    (h : (xs.set j a)[k]? = some c) (hne : c ≠ a) : xs[k]? = some c := by
  rw [List.getElem?_set] at h
  split at h
  · split at h
    · exact absurd (Option.some.inj h).symm hne
    · cases h
  · exact h

/-- A file that is there after an unlink has the inode and the block it had: neither the entry that
went nor what the last link freed is its own. -/
theorem contentOf_deleted {v : Store} {r : Str} (h : Consistent s g)
    (htarget : IsFile s g r i inode)
    (hdrop : s.dropLink i inode = .ok { s with toStore := v }) (hdir : block.ftype = .d)
    (ht : Consistent (deleted s v b block r n) g') (hfile : IsFile s g p j x)
    (hp : p ∈ (deleted s v b block r n).files) :
    (deleted s v b block r n).contentOf j = s.contentOf j := by
  obtain ⟨k, y, hfile', _⟩ := ht.exists_isFile hp
  obtain rfl : j = k := Option.some.inj (hfile.name.symm.trans hfile'.name)
  have hy : v.inodes[j]? = some y := hfile'.inodes_eq
  have haddr : y.addr = x.addr := by
    rcases dropLink_inodes h htarget hdrop with ⟨hinodes, _⟩ | ⟨hinodes, _⟩
    · rw [hinodes, getElem?_set_of_some htarget.inodes_eq] at hy
      split at hy
      · obtain rfl := Option.some.inj hy
        subst_vars
        rw [Option.some.inj (hfile.inodes_eq.symm.trans htarget.inodes_eq)]
        rfl
      · rw [Option.some.inj (hy.symm.trans hfile.inodes_eq)]
    · rw [hinodes] at hy
      have hne : y ≠ inode.free := by
        rintro rfl
        exact hfile'.live rfl
      rw [Option.some.inj ((getElem?_of_set hy hne).symm.trans hfile.inodes_eq)]
  refine contentOf_congr h.storage hfile.inodes_eq hfile'.inodes_eq haddr fun c hc => ?_
  obtain ⟨z, hz, htype⟩ := ht.storage.addr_block j y c hfile'.inodes_eq (haddr.trans hc)
  rw [hfile'.ftype] at htype
  -- a file's block is neither a directory's nor free
  have hentry : z ≠ block.removeEntry n := by
    rintro rfl
    exact FType.noConfusion (htype.symm.trans hdir)
  have hv : v.data[c]? = some z := getElem?_of_set hz hentry
  rw [hz]
  rcases dropLink_inodes h htarget hdrop with ⟨_, hdata⟩ | ⟨_, hdata | ⟨ab, ablock, _, _, hdata⟩⟩
  · rw [← hdata, hv]
  · rw [← hdata, hv]
  · rw [hdata] at hv
    refine (getElem?_of_set hv ?_).symm
    rintro rfl
    cases htype

/-! ## The operations, viewed -/

/-- The contents of the files of `s` are the same in `t`. -/
def KeepsContents (s t : Fs) (g : LinkGraph Nat Str) : Prop :=
  ∀ p ∈ t.files, ∀ j x, IsFile s g p j x → t.contentOf j = s.contentOf j

section View

variable {r data : Str}

/-- A new directory, or nothing new, does not change the view. -/
theorem view_same (h : Consistent s g) (ht : Consistent t g') (hfiles : t.files = s.files)
    (hname : ∀ p ∈ s.files, t.nameToInum p = s.nameToInum p) (hkept : KeepsContents s t g) :
    t.view = s.view := by
  apply HardLinks.ext
  case names => exact hfiles
  case Linked =>
    funext a b
    rw [propext (view_linked ht a b), propext (view_linked h a b), hfiles]
    refine propext (and_congr_right fun ha => and_congr_right fun hb => ?_)
    rw [hname a ha, hname b hb]
  case content =>
    funext a
    by_cases ha : a ∈ s.files
    · obtain ⟨j, x, hfile, _⟩ := h.exists_isFile ha
      have ha' : a ∈ t.files := hfiles ▸ ha
      rw [view_content h ha hfile.name, view_content ht ha' ((hname a ha).trans hfile.name)]
      exact hkept a ha' j x hfile
    · rw [view_content_of_not_mem ha, view_content_of_not_mem (hfiles ▸ ha)]

/-- A new file, under a new name, shows nothing. -/
theorem view_create (h : Consistent s g) (ht : Consistent t g') (hp : p ∉ s.files)
    (hfiles : t.files = s.files ++ [p])
    (hname : t.nameToInum = Function.update s.nameToInum p (some i))
    (hnew : ∀ q ∈ s.files, s.nameToInum q ≠ some i) (hempty : t.contentOf i = none)
    (hkept : KeepsContents s t g) : t.view = s.view.create p := by
  -- The new name leads to an inode that no other name leads to.
  have hself : t.nameToInum p = some i := by rw [hname, Function.update_self]
  have hold : ∀ q ∈ s.files, t.nameToInum q = s.nameToInum q := by
    intro q hq
    rw [hname, Function.update_of_ne (ne_of_mem_of_not_mem hq hp)]
  have hmem : ∀ q, q ∈ t.files ↔ q ∈ s.files ∨ q = p := by simp [hfiles]
  apply HardLinks.ext
  case names => exact hfiles
  case Linked =>
    funext a b
    show t.view.Linked a b = (s.view.Linked a b ∨ a = p ∧ b = p)
    rw [propext (view_linked ht a b), propext (view_linked h a b), hmem, hmem]
    apply propext
    constructor
    · rintro ⟨ha | rfl, hb | rfl, heq⟩
      · exact Or.inl ⟨ha, hb, by rw [← hold a ha, ← hold b hb, heq]⟩
      -- A new name is nobody's second one.
      · exact absurd ((hold a ha).symm.trans (heq.trans hself)) (hnew a ha)
      · exact absurd ((hold b hb).symm.trans (heq.symm.trans hself)) (hnew b hb)
      · exact Or.inr ⟨rfl, rfl⟩
    · rintro (⟨ha, hb, heq⟩ | ⟨rfl, rfl⟩)
      · exact ⟨Or.inl ha, Or.inl hb, by rw [hold a ha, hold b hb, heq]⟩
      · exact ⟨Or.inr rfl, Or.inr rfl, rfl⟩
  case content =>
    funext a
    show t.view.content a = s.view.content a
    by_cases ha : a ∈ s.files
    · obtain ⟨j, x, hfile, _⟩ := h.exists_isFile ha
      have ha' : a ∈ t.files := (hmem a).mpr (Or.inl ha)
      rw [view_content h ha hfile.name, view_content ht ha' ((hold a ha).trans hfile.name)]
      exact hkept a ha' j x hfile
    · rw [view_content_of_not_mem ha]
      by_cases hap : a = p
      · have ha' : a ∈ t.files := (hmem a).mpr (Or.inr hap)
        rw [view_content ht ha' (hap ▸ hself), hempty]
      · exact view_content_of_not_mem fun hin => ((hmem a).mp hin).elim ha hap

/-- A new name for the file `r`: it leads where `r` does, and shows the same. -/
theorem view_link (h : Consistent s g) (ht : Consistent t g')
    (hfiles : t.files = s.files ++ [p]) (hr : r ∈ s.files) (hri : s.nameToInum r = some i)
    (hname : t.nameToInum = Function.update s.nameToInum p (some i))
    (hkept : ∀ q ∈ s.files, ∀ j x, IsFile s g q j x → t.contentOf j = s.contentOf j) :
    t.view = s.view.link r p := by
  have htwin : ∀ a, t.nameToInum a = s.nameToInum (HardLinks.twin r p a) := by
    intro a
    unfold HardLinks.twin
    split
    · rw [hname, ‹a = p›, Function.update_self, hri]
    · rw [hname, Function.update_of_ne ‹_›]
  have hmem : ∀ a, a ∈ t.files ↔ HardLinks.twin r p a ∈ s.files := by
    intro a
    rw [hfiles]
    exact ⟨HardLinks.WellFormed.twin_mem (h := s.view) hr,
      HardLinks.WellFormed.mem_of_twin (h := s.view)⟩
  apply HardLinks.ext
  case names => exact hfiles
  case Linked =>
    funext a b
    show t.view.Linked a b = s.view.Linked (HardLinks.twin r p a) (HardLinks.twin r p b)
    rw [propext (view_linked ht a b), propext (view_linked h _ _), hmem, hmem, htwin, htwin]
  case content =>
    funext a
    show t.view.content a = s.view.content (HardLinks.twin r p a)
    by_cases ha : a ∈ t.files
    · have ha' := (hmem a).mp ha
      obtain ⟨j, x, hfile, _⟩ := h.exists_isFile ha'
      rw [view_content h ha' hfile.name, view_content ht ha ((htwin a).trans hfile.name)]
      exact hkept _ ha' j x hfile
    · rw [view_content_of_not_mem ha, view_content_of_not_mem fun hin => ha ((hmem a).mpr hin)]

/-- The first data of the file `p`: it shows under all names of the inode. -/
theorem view_write (h : Consistent s g) (ht : Consistent t g') (hp : p ∈ s.files)
    (hpi : s.nameToInum p = some i) (hfiles : t.files = s.files)
    (hname : t.nameToInum = s.nameToInum)
    (hwritten : ∀ q ∈ s.files, ∀ j x, IsFile s g q j x →
      t.contentOf j = if i = j then some data else s.contentOf j) :
    t.view = s.view.write p data := by
  apply HardLinks.ext
  case names => exact hfiles
  case Linked =>
    funext a b
    show t.view.Linked a b = s.view.Linked a b
    rw [propext (view_linked ht a b), propext (view_linked h a b), hfiles, hname]
  case content =>
    funext a
    by_cases ha : a ∈ s.files
    · obtain ⟨j, x, hfile, _⟩ := h.exists_isFile ha
      have ha' : a ∈ t.files := hfiles ▸ ha
      have hcontent : t.view.content a = if i = j then some data else s.contentOf j := by
        rw [view_content ht ha' ((congrFun hname a).trans hfile.name)]
        exact hwritten a ha j x hfile
      have hlinked : s.view.Linked p a ↔ i = j := by
        rw [view_linked h, hpi, hfile.name]
        exact ⟨fun hpa => Option.some.inj hpa.2.2, fun hij => ⟨hp, ha, congrArg some hij⟩⟩
      rw [hcontent]
      split
      · exact (HardLinks.write_linked (hlinked.mpr ‹_›)).symm
      · rw [HardLinks.write_not_linked fun hpa => ‹¬ i = j› (hlinked.mp hpa),
          view_content h ha hfile.name]
    · have hpa : ¬ s.view.Linked p a := (view_wellFormed h).not_linked_right ha
      rw [HardLinks.write_not_linked hpa, view_content_of_not_mem ha,
        view_content_of_not_mem (hfiles ▸ ha)]

/-- A name less; the others show what they did. -/
theorem view_unlink (h : Consistent s g) (ht : Consistent t g') (hfiles : t.files = s.files.erase p)
    (hname : t.nameToInum = s.nameToInum) (hkept : KeepsContents s t g) :
    t.view = s.view.unlink p := by
  have hmem : ∀ a, a ∈ t.files ↔ a ≠ p ∧ a ∈ s.files := by
    intro a
    rw [hfiles]
    exact h.paths.files_nodup.mem_erase_iff
  apply HardLinks.ext
  case names =>
    -- the two sides compare strings by different instances
    refine hfiles.trans ?_
    exact congrArg (fun beq : BEq Str => @List.erase Str beq s.files p)
      (lawful_beq_subsingleton _ _)
  case Linked =>
    funext a b
    show t.view.Linked a b = (a ≠ p ∧ b ≠ p ∧ s.view.Linked a b)
    rw [propext (view_linked ht a b), propext (view_linked h a b), hmem, hmem, hname]
    apply propext
    tauto
  case content =>
    funext a
    show t.view.content a = Function.update s.view.content p none a
    by_cases hap : a = p
    · rw [hap, Function.update_self]
      exact view_content_of_not_mem fun hin => ((hmem p).mp hin).1 rfl
    · rw [Function.update_of_ne hap]
      by_cases ha : a ∈ s.files
      · obtain ⟨j, x, hfile, _⟩ := h.exists_isFile ha
        have ha' : a ∈ t.files := (hmem a).mpr ⟨hap, ha⟩
        rw [view_content h ha hfile.name,
          view_content ht ha' ((congrFun hname a).trans hfile.name)]
        exact hkept a ha' j x hfile
      · rw [view_content_of_not_mem ha]
        exact view_content_of_not_mem fun hin => ha ((hmem a).mp hin).2

end View

/-! ## Runs -/

/-- What a successful call does to the view. A directory is not in it. -/
def Op.effect : Op → List (HardLinks.Op Str Str)
  | .creat parent nfile => [.create (Fs.fullName parent nfile)]
  | .mkdir _ _ => []
  | .link parent nfile target => [.link target (Fs.fullName parent nfile)]
  | .unlink dfile => [.unlink dfile]
  | .append afile data => [.write afile data]

/-- A call with what it returned: only 0 is success. -/
def effects (call : Op × Int) : List (HardLinks.Op Str Str) :=
  if call.2 = 0 then call.1.effect else []

/-- Workloads, labelled with what each call returned too. -/
def calls (numInodes numData : Nat) : Lts Fs (Op × Int) where
  init s := Fs.new numInodes numData = .ok s
  step s call t := call.1.Drawn s ∧ call.1.run s = .ok (call.2, t)

/-- The view of `t` comes from that of `s` by the effects of the call. -/
def Viewed (s : Fs) (call : Op × Int) (t : Fs) : Prop :=
  (HardLinks.system Str Str).Run s.view (effects call) t.view

section Runs

variable {op : Op}

theorem viewed_one {hop : HardLinks.Op Str Str} (heffect : op.effect = [hop])
    (henabled : hop.Enabled s.view) (hview : t.view = hop.apply s.view) : Viewed s (op, 0) t := by
  show (HardLinks.system Str Str).Run s.view op.effect t.view
  rw [heffect]
  exact .snoc .nil ⟨henabled, hview⟩

theorem viewed_none (heffect : op.effect = []) (hview : t.view = s.view) : Viewed s (op, 0) t := by
  show (HardLinks.system Str Str).Run s.view op.effect t.view
  rw [heffect, hview]
  exact .nil

/-- A successful `creat` is the creation of a name in the view. -/
theorem viewed_creat (h : Consistent s g) (hq : q ∈ s.dirs) (hn : ValidName n)
    (hdir : IsDir s g q d inode b block) (hcan : CanEnter block n) (hi : i < s.numInodes)
    (hunused : ¬ s.InodeUsed i) :
    Viewed s (.creat q n, 0) (newFile (createdFile s i b block n) (Fs.fullName q n) i) := by
  have hnew := h.paths.not_mem_files hq hn hdir.name (hcan.names_ne hdir)
  have ht := createdFile_consistent h hdir hq hn hcan hi hunused
  obtain ⟨old, hold, _⟩ := h.storage.free_inode hi hunused
  refine viewed_one rfl hnew (view_create (i := i) h ht hnew rfl rfl ?_ ?_ ?_)
  · intro p hp hname
    obtain ⟨j, x, hfile, _⟩ := h.exists_isFile hp
    exact hfile.ne_unused hunused (Option.some.inj (hname.symm.trans hfile.name))
  · have hinode := getElem?_set_of_some hold ⟨.f, none, 1⟩ i
    rw [if_pos rfl] at hinode
    exact contentOf_none hinode rfl
  · intro p _ j x hfile
    exact contentOf_createdFile h hdir hunused hfile

/-- A successful `mkdir` does not show in the view. -/
theorem viewed_mkdir (h : Consistent s g) (hq : q ∈ s.dirs) (hn : ValidName n)
    (hdir : IsDir s g q d inode b block) (hcan : CanEnter block n) (hi : i < s.numInodes)
    (hunused : ¬ s.InodeUsed i) {fb : Nat} {fblock : Block} (hfb : s.data[fb]? = some fblock)
    (hfree : fblock.ftype = .free) :
    Viewed s (.mkdir q n, 0)
      (newDir (createdDir s i fb fblock d inode b block n) (Fs.fullName q n) i) := by
  have hnew := h.paths.not_mem_files hq hn hdir.name (hcan.names_ne hdir)
  have ht := createdDir_consistent h hdir hq hn hcan hi hunused hfb hfree
  refine viewed_none rfl (view_same h ht rfl ?_ ?_)
  · intro p hp
    exact Function.update_of_ne (ne_of_mem_of_not_mem hp hnew) ..
  · intro p _ j x hfile
    exact contentOf_createdDir h hdir hunused hfb hfree hfile

/-- Every step of the workload is what its effects say in the view. -/
theorem viewed_run {op : Op} {rc : Int} (h : Consistent s g) (hran : Ran s g op rc t g') :
    Viewed s (op, rc) t := by
  have ht := hran.consistent h
  cases hran with
  | failed op => exact .nil
  | creat hq hn hdir hcan hi hunused => exact viewed_creat h hq hn hdir hcan hi hunused
  | mkdir hq hn hdir hcan hi hunused hfb hfree =>
    exact viewed_mkdir h hq hn hdir hcan hi hunused hfb hfree
  | link hq hn hdir hcan hp hfile =>
    have hnew := h.paths.not_mem_files hq hn hdir.name (hcan.names_ne hdir)
    refine viewed_one rfl ⟨hp, hnew⟩ (view_link h ht rfl hp hfile.name rfl ?_)
    intro p _ j x hfile'
    exact contentOf_linked h hdir hfile hfile'
  | unlink hq hn hname hp hfile hdrop hblock hrest ht =>
    refine viewed_one rfl hp (view_unlink h ht rfl rfl ?_)
    intro p hp' j x hfile'
    exact contentOf_deleted h hfile hdrop hblock ht hfile' hp'
  | @append p i fb inode fblock hp hfile haddr hfb hfree data =>
    have hempty : s.view.content p = none := by
      rw [view_content h hp hfile.name, contentOf_none hfile.inodes_eq haddr]
    refine viewed_one rfl ⟨hp, hempty⟩ (view_write h ht hp hfile.name rfl rfl ?_)
    intro q _ j x hfile'
    exact contentOf_written h hfile hfb hfree data hfile'

/-- The states of a workload that is labelled with what its calls return are consistent, as without
the labels. -/
theorem consistent_calls {numInodes numData : Nat} (h : (calls numInodes numData).Reachable s) :
    ∃ g, Consistent s g := by
  have hreach : (workload numInodes numData).Reachable (id s) := by
    refine Lts.Reachable.refines (M := calls numInodes numData) (N := workload numInodes numData)
      (f := id) (fun _ hinit => hinit) ?_ h
    rintro s ⟨op, rc⟩ t _ ⟨hop, hrun⟩
    exact ⟨op, hop, rc, hrun⟩
  obtain ⟨s₀, _, hinit, _⟩ := h
  obtain ⟨hi, hd⟩ := pos_of_new hinit
  exact consistent_reachable hi hd hreach

theorem not_unlinked {cs : List (Op × Int)} (h : (Op.unlink p, 0) ∉ cs) :
    HardLinks.Op.unlink p ∉ cs.flatMap effects := by
  intro hmem
  obtain ⟨⟨op, rc⟩, hcall, heffect⟩ := List.mem_flatMap.mp hmem
  unfold effects at heffect
  split at heffect
  · have hrc : rc = 0 := ‹_›
    cases op with
    | unlink dfile =>
      obtain rfl : p = dfile := by simpa [Op.effect] using heffect
      exact h (hrc ▸ hcall)
    | creat parent nfile => simp [Op.effect] at heffect
    | mkdir parent nfile => simp [Op.effect] at heffect
    | link parent nfile target => simp [Op.effect] at heffect
    | append afile data => simp [Op.effect] at heffect
  · cases heffect

end Runs

/-- **Contents are kept.** Every run is a run of a store of names for shared contents. So whatever
else happens, names that are not unlinked lead to the same inode or to different ones as before, and
go on showing what was once written to them. -/
theorem contents_kept {numInodes numData : Nat} {cs : List (Op × Int)}
    (hs : (calls numInodes numData).Reachable s) (hrun : (calls numInodes numData).Run s cs t) :
    (HardLinks.system Str Str).Run s.view (cs.flatMap effects) t.view ∧
      (∀ p ∈ s.files, ∀ q ∈ s.files, (.unlink p, 0) ∉ cs → (.unlink q, 0) ∉ cs →
        (p ∈ t.files ∧ q ∈ t.files) ∧ (t.resolve p = t.resolve q ↔ s.resolve p = s.resolve q)) ∧
      ∀ p ∈ s.files, (.unlink p, 0) ∉ cs → ∀ data,
        s.resolve p >>= s.contentOf = some data → t.resolve p >>= t.contentOf = some data := by
  obtain ⟨g, h⟩ := consistent_calls hs
  have hviews : (HardLinks.system Str Str).Run s.view (cs.flatMap effects) t.view := by
    refine Lts.Run.refines (f := Fs.view) ?_ hs hrun
    rintro s ⟨op, rc⟩ t hs ⟨hop, hcall⟩
    obtain ⟨g, h⟩ := consistent_calls hs
    obtain ⟨g', hran⟩ := h.ran_of_run hop hcall
    exact viewed_run h hran
  refine ⟨hviews, ?_, ?_⟩
  · intro p hp q hq hpcs hqcs
    obtain ⟨hmem, hlinked⟩ :=
      HardLinks.run_linked hviews hp hq (not_unlinked hpcs) (not_unlinked hqcs)
    have hiff : t.view.Linked p q ↔ s.view.Linked p q := hlinked
    simp only [Fs.view, hp, hq, true_and] at hiff
    have hp' : p ∈ t.files := hmem.1
    have hq' : q ∈ t.files := hmem.2
    simp only [hp', hq', true_and] at hiff
    exact ⟨⟨hp', hq'⟩, hiff⟩
  · intro p hp hpcs data hdata
    have hshown : s.view.content p = some data := by
      rw [← hdata]
      exact if_pos hp
    have hops := not_unlinked hpcs
    obtain ⟨⟨hmem, _⟩, _⟩ := HardLinks.run_linked hviews hp hp hops hops
    have hkept := HardLinks.run_content (view_wellFormed h) hviews hshown hops
    rw [← hkept]
    exact (if_pos hmem).symm

/-- A file gets a second name and is written under it; the first one shows the data, and a run
that unlinks the second one leaves it so. -/
theorem contents_kept_linked :
    ∃ s t, (calls 3 3).Reachable s ∧ s.files = [['/', 'a'], ['/', 'b']] ∧
      (calls 3 3).Run s [(.unlink ['/', 'b'], 0)] t ∧
      t.resolve ['/', 'a'] >>= t.contentOf = some ['x'] := by
  obtain ⟨s₁, s₂, s, t, hcreat, hlink, happend, hunlink, hdirs, hfiles₁, hfiles₂, hfiles, hshown⟩ :
      ∃ s₁ s₂ s t, (Op.creat ['/'] ['a']).run (fresh 3 3) = .ok (0, s₁) ∧
        (Op.link ['/'] ['b'] ['/', 'a']).run s₁ = .ok (0, s₂) ∧
        (Op.append ['/', 'b'] ['x']).run s₂ = .ok (0, s) ∧
        (Op.unlink ['/', 'b']).run s = .ok (0, t) ∧ s₁.dirs = [['/']] ∧
        s₁.files = [['/', 'a']] ∧ s₂.files = [['/', 'a'], ['/', 'b']] ∧
        s.files = [['/', 'a'], ['/', 'b']] ∧
        s.resolve ['/', 'a'] >>= s.contentOf = some ['x'] :=
    ⟨_, _, _, _, rfl, rfl, rfl, rfl, rfl, rfl, rfl, rfl, rfl⟩
  have hroot : ['/'] ∈ (fresh 3 3).dirs := List.mem_singleton_self _
  have ha : ValidName ['a'] := ⟨by decide, by decide⟩
  have hb : ValidName ['b'] := ⟨by decide, by decide⟩
  have hinit : (calls 3 3).Reachable (fresh 3 3) :=
    Lts.Reachable.of_init (new_ok (by decide) (by decide))
  have hreach₁ := hinit.step (a := (Op.creat ['/'] ['a'], (0 : Int))) ⟨⟨hroot, ha⟩, hcreat⟩
  have hreach₂ := hreach₁.step (a := (Op.link ['/'] ['b'] ['/', 'a'], (0 : Int)))
    ⟨⟨⟨by simp [hdirs], hb⟩, fun _ => by simp [hfiles₁]⟩, hlink⟩
  have hreach := hreach₂.step (a := (Op.append ['/', 'b'] ['x'], (0 : Int)))
    ⟨fun _ => by simp [hfiles₂], happend⟩
  have hrun : (calls 3 3).Run s [(.unlink ['/', 'b'], 0)] t :=
    .snoc .nil ⟨fun _ => by simp [hfiles], hunlink⟩
  have hkept := (contents_kept hreach hrun).2.2 ['/', 'a'] (by simp [hfiles]) (by simp) ['x'] hshown
  exact ⟨s, t, hreach, hfiles, hrun, hkept⟩

end OsLab.Vsfs
