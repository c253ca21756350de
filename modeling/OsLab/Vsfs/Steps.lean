import OsLab.Vsfs.Undo

/-!
# What one operation does

`Ran s g op rc t g'` says what there is to know of a drawn operation: it returns -1 and leaves the
state, or it returns 0 and leaves the state its calls build, with the link graph changed by one
entry. An invariant of the workload is proved by cases on it.

* **`Ran`** -- one constructor for a failed call, and one for each kind of success.
* **`Consistent.ran`**, **`Consistent.ran_of_run`** -- every drawn operation is one of these.
* **`ran_invariant_of`**, **`ran_invariant`** -- what holds at first and is kept by each constructor
  holds in every reachable state.
-/

namespace OsLab.Vsfs

inductive Ran (s : Fs) (g : LinkGraph Nat Str) : Op → Int → Fs → LinkGraph Nat Str → Prop where
  | failed (op : Op) : Ran s g op (-1) s g
  | creat {q n : Str} {d b i : Nat} {inode : Inode} {block : Block} (hq : q ∈ s.dirs)
      (hn : ValidName n) (hdir : IsDir s g q d inode b block) (hcan : CanEnter block n)
      (hi : i < s.numInodes) (hunused : ¬ s.InodeUsed i) :
      Ran s g (.creat q n) 0 (newFile (createdFile s i b block n) (Fs.fullName q n) i)
        (g.addFile d n i)
  | mkdir {q n : Str} {d b i fb : Nat} {inode : Inode} {block fblock : Block} (hq : q ∈ s.dirs)
      (hn : ValidName n) (hdir : IsDir s g q d inode b block) (hcan : CanEnter block n)
      (hi : i < s.numInodes) (hunused : ¬ s.InodeUsed i) (hfb : s.data[fb]? = some fblock)
      (hfree : fblock.ftype = .free) :
      Ran s g (.mkdir q n) 0
        (newDir (createdDir s i fb fblock d inode b block n) (Fs.fullName q n) i) (g.addDir d n i)
  | link {p q n : Str} {d b i : Nat} {inode tinode : Inode} {block : Block} (hq : q ∈ s.dirs)
      (hn : ValidName n) (hdir : IsDir s g q d inode b block) (hcan : CanEnter block n)
      (hp : p ∈ s.files) (hfile : IsFile s g p i tinode) :
      Ran s g (.link q n p) 0 (newFile (linked s i tinode b block n) (Fs.fullName q n) i)
        (g.addLink d n i)
  | unlink {q n : Str} {d b i : Nat} {inode : Inode} {block : Block} {v : Store}
      {rest : Multiset (Str × Nat)} (hq : q ∈ s.dirs) (hn : ValidName n)
      (hname : s.nameToInum q = some d) (hp : Fs.fullName q n ∈ s.files)
      (hfile : IsFile s g (Fs.fullName q n) i inode)
      (hdrop : s.dropLink i inode = .ok { s with toStore := v }) (hblock : block.ftype = .d)
      (hrest : g.children d = (n, i) ::ₘ rest)
      (ht : Consistent (deleted s v b block (Fs.fullName q n) n) (g.unlink d i rest)) :
      Ran s g (.unlink (Fs.fullName q n)) 0 (deleted s v b block (Fs.fullName q n) n)
        (g.unlink d i rest)
  | append {p : Str} {i fb : Nat} {inode : Inode} {fblock : Block} (hp : p ∈ s.files)
      (hfile : IsFile s g p i inode) (haddr : inode.addr = none)
      (hfb : s.data[fb]? = some fblock) (hfree : fblock.ftype = .free) (data : Str) :
      Ran s g (.append p data) 0 (written s i inode fb fblock data) g

section Ran

variable {s t : Fs} {g g' : LinkGraph Nat Str} {op : Op} {rc : Int} {p q n data : Str}

/-- Each of these steps leaves a consistent state. -/
theorem Ran.consistent (hran : Ran s g op rc t g') (h : Consistent s g) : Consistent t g' := by
  cases hran with
  | failed => exact h
  | creat hq hn hdir hcan hi hunused => exact createdFile_consistent h hdir hq hn hcan hi hunused
  | mkdir hq hn hdir hcan hi hunused hfb hfree =>
    exact createdDir_consistent h hdir hq hn hcan hi hunused hfb hfree
  | link hq hn hdir hcan hp hfile => exact linked_consistent h hdir hq hn hcan hfile
  | unlink _ _ _ _ _ _ _ _ ht => exact ht
  | append hp hfile haddr hfb hfree data =>
    exact written_consistent h hfile haddr hfb hfree data

/-- A drawn `creat` is one of these steps. So are the four other operations. -/
theorem ran_creat (h : Consistent s g) (hq : q ∈ s.dirs) (hn : ValidName n) :
    ∃ rc t g', s.doCreate .f q n = .ok (rc, t) ∧ Ran s g (.creat q n) rc t g' := by
  obtain ⟨d, inode, b, block, hdir⟩ := h.exists_isDir hq
  rcases doCreate_cases (n := n) h hdir (Or.inl rfl) with hnone | ⟨i, hi, hunused, hcan, hcreated⟩
  · exact ⟨-1, s, g, hnone, .failed _⟩
  · rcases hcreated with ⟨_, hcreated⟩ | ⟨hne, _⟩
    · exact ⟨0, _, _, hcreated, .creat hq hn hdir hcan hi hunused⟩
    · cases hne

theorem ran_mkdir (h : Consistent s g) (hq : q ∈ s.dirs) (hn : ValidName n) :
    ∃ rc t g', s.doCreate .d q n = .ok (rc, t) ∧ Ran s g (.mkdir q n) rc t g' := by
  obtain ⟨d, inode, b, block, hdir⟩ := h.exists_isDir hq
  rcases doCreate_cases (n := n) h hdir (Or.inr rfl) with hnone | ⟨i, hi, hunused, hcan, hcreated⟩
  · exact ⟨-1, s, g, hnone, .failed _⟩
  · rcases hcreated with ⟨hne, _⟩ | ⟨_, fb, fblock, hfb, hfree, hcreated⟩
    · cases hne
    · exact ⟨0, _, _, hcreated, .mkdir hq hn hdir hcan hi hunused hfb hfree⟩

/-! With no files, the calls that need one fail. -/

theorem doLink_nil (hnil : s.files = []) : s.doLink q n p = .ok (-1, s) := by
  simp [Fs.doLink, hnil, pure, Except.pure]

theorem doDelete_nil (hnil : s.files = []) : s.doDelete p = .ok (-1, s) := by
  simp [Fs.doDelete, hnil, pure, Except.pure]

theorem doAppend_nil (hnil : s.files = []) : s.doAppend p data = .ok (-1, s) := by
  simp [Fs.doAppend, hnil, pure, Except.pure]

theorem ran_link (h : Consistent s g) (hq : q ∈ s.dirs) (hn : ValidName n)
    (hp : s.files ≠ [] → p ∈ s.files) :
    ∃ rc t g', s.doLink q n p = .ok (rc, t) ∧ Ran s g (.link q n p) rc t g' := by
  by_cases hnil : s.files = []
  · exact ⟨-1, s, g, doLink_nil hnil, .failed _⟩
  · obtain ⟨d, inode, b, block, hdir⟩ := h.exists_isDir hq
    rcases doLink_cases h hdir hn hp with hnone | ⟨hcan, i, tinode, hfile, hlinked⟩
    · exact ⟨-1, s, g, hnone, .failed _⟩
    · exact ⟨0, _, _, hlinked, .link hq hn hdir hcan (hp hnil) hfile⟩

theorem ran_unlink (h : Consistent s g) (hp : s.files ≠ [] → p ∈ s.files) :
    ∃ rc t g', s.doDelete p = .ok (rc, t) ∧ Ran s g (.unlink p) rc t g' := by
  by_cases hnil : s.files = []
  · exact ⟨-1, s, g, doDelete_nil hnil, .failed _⟩
  · obtain ⟨i, inode, v, b, block, n, q, j, rest, hfile, hdrop, hblock, hdelete, hq, hn, rfl, hj,
      hrest, ht⟩ := deleteFile_unlinks h (hp hnil)
    have hdeleted := (doDelete_eq (hp hnil)).trans hdelete
    exact ⟨0, _, _, hdeleted, .unlink hq hn hj (hp hnil) hfile hdrop hblock hrest ht⟩

theorem ran_append (h : Consistent s g) (hp : s.files ≠ [] → p ∈ s.files) (data : Str) :
    ∃ rc t g', s.doAppend p data = .ok (rc, t) ∧ Ran s g (.append p data) rc t g' := by
  by_cases hnil : s.files = []
  · exact ⟨-1, s, g, doAppend_nil hnil, .failed _⟩
  · rcases doAppend_cases h hp data with hfull | ⟨i, inode, hfile, haddr, fb, fblock, hfb, hfree,
      hwritten⟩
    · exact ⟨-1, s, g, hfull, .failed _⟩
    · exact ⟨0, _, _, hwritten, .append (hp hnil) hfile haddr hfb hfree data⟩

/-- From a consistent state, a drawn operation runs and is one of these steps. -/
theorem Consistent.ran (h : Consistent s g) (hop : op.Drawn s) :
    ∃ rc t g', op.run s = .ok (rc, t) ∧ Ran s g op rc t g' := by
  cases op with
  | creat q n => exact ran_creat h hop.1 hop.2
  | mkdir q n => exact ran_mkdir h hop.1 hop.2
  | link q n p => exact ran_link h hop.1.1 hop.1.2 hop.2
  | unlink p => exact ran_unlink h hop
  | append p data => exact ran_append h hop data

/-- An operation that has run was one of these steps, with some graph behind it. -/
theorem Consistent.ran_of_run (h : Consistent s g) (hop : op.Drawn s)
    (hrun : op.run s = .ok (rc, t)) : ∃ g', Ran s g op rc t g' := by
  obtain ⟨rc', t', g', hrun', hran⟩ := h.ran hop
  cases hrun'.symm.trans hrun
  exact ⟨g', hran⟩

/-- What holds at first, and of what is left when it held before, holds in every state that a
workload reaches with operations of the kind `P`. -/
theorem ran_invariant_of {numInodes numData : Nat} {P : Op → Prop}
    {I : Fs → LinkGraph Nat Str → Prop} (hinit : I (fresh numInodes numData) rootGraph)
    (hstep : ∀ s g op rc t g', Consistent s g → I s g → P op → Ran s g op rc t g' → I t g')
    (h : ((workload numInodes numData).restrict fun _ op => P op).Reachable s) :
    ∃ g, Consistent s g ∧ I s g := by
  refine h.invariant (I := fun s => ∃ g, Consistent s g ∧ I s g) ?_ ?_
  · intro s hnew
    obtain ⟨hi, hd⟩ := pos_of_new hnew
    obtain rfl : fresh numInodes numData = s := Except.ok.inj ((new_ok hi hd).symm.trans hnew)
    exact ⟨rootGraph, fresh_consistent hi hd, hinit⟩
  · rintro s op t ⟨g, hs, hI⟩ ⟨hP, hop, rc, hrun⟩
    obtain ⟨g', hran⟩ := hs.ran_of_run hop hrun
    exact ⟨g', hran.consistent hs, hstep s g op rc t g' hs hI hP hran⟩

/-- The same for all operations. -/
theorem ran_invariant {numInodes numData : Nat} {I : Fs → LinkGraph Nat Str → Prop}
    (hinit : I (fresh numInodes numData) rootGraph)
    (hstep : ∀ s g op rc t g', Consistent s g → I s g → Ran s g op rc t g' → I t g')
    (h : (workload numInodes numData).Reachable s) : ∃ g, Consistent s g ∧ I s g := by
  obtain ⟨s₀, ops, hnew, hrun⟩ := h
  have hall := hrun.restrict (P := fun _ _ => True) fun _ _ _ => trivial
  refine ran_invariant_of (P := fun _ => True) hinit ?_ ⟨s₀, ops, hnew, hall⟩
  intro s g op rc t g' hs hI _ hran
  exact hstep s g op rc t g' hs hI hran

/-- What `dropLink` does: the inode counts one link less, or is free with its block. -/
theorem dropLink_inodes {i : Nat} {inode : Inode} {v : Store} (h : Consistent s g)
    (hfile : IsFile s g p i inode) (hdrop : s.dropLink i inode = .ok { s with toStore := v }) :
    (v.inodes = s.inodes.set i inode.decRefCnt ∧ v.data = s.data) ∨
      v.inodes = s.inodes.set i inode.free ∧
        (v.data = s.data ∨ ∃ ab ablock, inode.addr = some ab ∧ s.data[ab]? = some ablock ∧
          v.data = s.data.set ab { ablock with data := [], ftype := .free }) := by
  by_cases hlast : inode.refCnt = 1
  · right
    cases haddr : inode.addr with
    | none =>
      cases (dropLink_inode h.storage hfile.inodes_eq hfile.live hlast haddr).symm.trans hdrop
      exact ⟨rfl, Or.inl rfl⟩
    | some ab =>
      obtain ⟨ablock, hablock, hatype⟩ := h.storage.addr_block i inode ab hfile.inodes_eq haddr
      rw [hfile.ftype] at hatype
      have hboth := dropLink_block h.storage hfile.inodes_eq hfile.live hlast haddr hablock hatype
      cases hboth.symm.trans hdrop
      exact ⟨rfl, Or.inr ⟨ab, ablock, rfl, hablock, rfl⟩⟩
  · left
    cases (dropLink_count hfile.inodes_eq hlast).symm.trans hdrop
    exact ⟨rfl, rfl⟩

end Ran

end OsLab.Vsfs
