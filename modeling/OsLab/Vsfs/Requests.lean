import Mathlib.Data.Finset.Max
import OsLab.Vsfs.Summary

/-!
# The request loop of VSFS

`run` makes requests. For each it draws operations until one does not return -1, and it exits as
soon as no inode or no block is free. What was drawn in vain leaves no trace, so a request is one
call; and there is always an operation to draw that ends it.

* **`attempt`**, **`request`**, **`run`** -- one turn of the loop, the loop for one request, and all
  requests.
* **`AllDrawn`**, **`Made`** -- draws that the generator can make: arguments from its lists, names
  of one letter.
* **`request_cases`**, **`run_steps`** -- what a request and a run come to.
* **`exists_last`** -- some draw ends the request: a file can be unlinked, or an empty directory
  takes a letter.
* **`run_exact`** -- the three endings of the program, and that it never aborts.
-/

namespace OsLab.Vsfs

/-! ## The loop -/

def Bitmap.numFree (b : Bitmap) : Int := b.size - b.numAllocated

namespace Fs

/-- One turn of the `while` loop. -/
def attempt (s : Fs) (op : Op) : Except Abort (Int × Fs) := do
  let (rc, s) ← op.run s
  if s.ibitmap.numFree = 0 then
    .error .exit
  else if s.dbitmap.numFree = 0 then
    .error .exit
  else
    return (rc, s)

/-- `while rc == -1`: the operation that ends it, the state then and the draws that are left.
`none` when it still goes on after all of `ops`. -/
def request (s : Fs) : List Op → Except Abort (Option (Op × Fs × List Op))
  | [] => return none
  | op :: ops => do
    let (rc, t) ← s.attempt op
    if rc = -1 then t.request ops else return some (op, t, ops)

/-- `run`: the operations that took place, each with the state that is printed after it. -/
def run (s : Fs) : Nat → List Op → Except Abort (Option (List (Op × Fs)))
  | 0, _ => return some []
  | numRequests + 1, ops => do
    match ← s.request ops with
    | none => return none
    | some (op, t, ops) => do
      let steps ← t.run numRequests ops
      return steps.map ((op, t) :: ·)

/-- The letters of `makeName` -/
def letters : List Char :=
  ['a', 'b', 'c', 'd', 'e', 'f', 'g', 'h', 'j', 'k', 'm', 'n', 'o', 'p', 'q', 'r', 's', 't', 'u',
    'v', 'w', 'x', 'y', 'z']

/-- Each operation is one that can be drawn when its turn comes. -/
def AllDrawn (s : Fs) : List Op → Prop
  | [] => True
  | op :: ops => op.Drawn s ∧ ∀ rc t, op.run s = .ok (rc, t) → t.AllDrawn ops

end Fs

/-- A name that `makeName` makes. -/
def Made (n : Str) : Prop := ∃ c ∈ Fs.letters, n = [c]

/-- The new names are made by `makeName`, and new data is a small letter. -/
def Op.Made : Op → Prop
  | .creat _ nfile => Vsfs.Made nfile
  | .mkdir _ nfile => Vsfs.Made nfile
  | .link _ nfile _ => Vsfs.Made nfile
  | .unlink _ => True
  | .append _ data => ∃ k < 26, data = [Char.ofNat ('a'.toNat + k)]

/-! ## Room -/

theorem Bitmap.Agrees.numFree_eq_zero {b : Bitmap} {n : Nat} {used : Nat → Prop}
    (h : b.Agrees n used) (hall : ∀ i < n, used i) : b.numFree = 0 := by
  have hone : ∀ x ∈ b.bmap, x = 1 := by
    intro x hx
    obtain ⟨i, hi⟩ := List.mem_iff_getElem?.mp hx
    obtain ⟨hlt, _⟩ := List.getElem?_eq_some_iff.mp hi
    rcases h.bits i x hi with ⟨hx, _⟩ | ⟨_, hnot⟩
    · exact hx
    · exact absurd (hall i (h.length ▸ hlt)) hnot
  have hcount : b.bmap.count 1 = b.bmap.length :=
    List.count_eq_length.mpr fun x hx => (hone x hx).symm
  rw [Bitmap.numFree, h.size, h.count, hcount, h.length]
  omega

section Requests

variable {s t : Fs} {g g' : LinkGraph Nat Str} {op : Op} {ops rest : List Op} {rc : Int}
  {p q n : Str}

/-- A turn ends alike with the call, or exits for want of an inode or a block. -/
theorem attempt_cases (h : Consistent s g) (hop : op.Drawn s) :
    s.attempt op = .error .exit ∨
      ∃ rc t g', s.attempt op = .ok (rc, t) ∧ op.run s = .ok (rc, t) ∧ Ran s g op rc t g' := by
  obtain ⟨rc, t, g', hrun, hran⟩ := h.ran hop
  simp only [Fs.attempt, hrun, bind, Except.bind, pure, Except.pure]
  split
  · exact Or.inl rfl
  · split
    · exact Or.inl rfl
    · exact Or.inr ⟨rc, t, g', rfl, rfl, hran⟩

/-- An operation returns -1 and leaves the state, or returns 0. -/
theorem Ran.rc_cases (hran : Ran s g op rc t g') : (rc = -1 ∧ t = s ∧ g' = g) ∨ rc = 0 := by
  cases hran with
  | failed => exact Or.inl ⟨rfl, rfl, rfl⟩
  | _ => exact Or.inr rfl

/-- The operations before the one that ends the loop have changed nothing, so the request is the
last one alone. -/
theorem request_cases (h : Consistent s g) (hdrawn : s.AllDrawn ops) :
    s.request ops = .error .exit ∨ s.request ops = .ok none ∨
      ∃ failed op t rest g', ops = failed ++ op :: rest ∧
        (∀ f ∈ failed, f.run s = .ok (-1, s)) ∧ s.request ops = .ok (some (op, t, rest)) ∧
        op.Drawn s ∧ op.run s = .ok (0, t) ∧ Ran s g op 0 t g' ∧ t.AllDrawn rest := by
  induction ops with
  | nil => exact Or.inr (Or.inl rfl)
  | cons op ops ih =>
    obtain ⟨hop, hnext⟩ := hdrawn
    rcases attempt_cases h hop with hexit | ⟨rc, t, g', hattempt, hrun, hran⟩
    · left
      simp only [Fs.request, hexit, bind, Except.bind]
    · rcases hran.rc_cases with ⟨rfl, rfl, rfl⟩ | rfl
      · -- the loop goes on in the same state
        have hgoes : t.request (op :: ops) = t.request ops := by
          simp only [Fs.request, hattempt, bind, Except.bind, if_true]
        rw [hgoes]
        refine (ih (hnext _ _ hrun)).imp id (Or.imp id ?_)
        rintro ⟨failed, op', t', rest, g', rfl, hfailed, hended⟩
        refine ⟨op :: failed, op', t', rest, g', rfl, ?_, hended⟩
        intro f hf
        rcases List.mem_cons.mp hf with rfl | hf
        · exact hrun
        · exact hfailed f hf
      · refine Or.inr (Or.inr ⟨[], op, t, ops, g', rfl, by simp, ?_, hop, hrun, hran, ?_⟩)
        · simp only [Fs.request, hattempt, bind, Except.bind]
          rfl
        · exact hnext _ _ hrun

/-- The states that are printed, one call after the other. -/
inductive Steps : Fs → List (Op × Fs) → Prop where
  | nil (s : Fs) : Steps s []
  | cons {s t : Fs} {op : Op} {steps : List (Op × Fs)} (hop : op.Drawn s)
      (hrun : op.run s = .ok (0, t)) (rest : Steps t steps) : Steps s ((op, t) :: steps)

/-- All requests: an exit, not enough draws, or one successful call for each. -/
theorem run_steps (h : Consistent s g) (hdrawn : s.AllDrawn ops) (k : Nat) :
    s.run k ops = .error .exit ∨ s.run k ops = .ok none ∨
      ∃ steps, s.run k ops = .ok (some steps) ∧ steps.length = k ∧ Steps s steps := by
  induction k generalizing s g ops with
  | zero => exact Or.inr (Or.inr ⟨[], rfl, rfl, .nil s⟩)
  | succ k ih =>
    rcases request_cases h hdrawn with hexit | hgoes | ⟨_, op, t, rest, g', _, _, hended, hop, hrun,
      hran, hrest⟩
    · left
      simp only [Fs.run, hexit, bind, Except.bind]
    · right
      left
      simp only [Fs.run, hgoes, bind, Except.bind]
      rfl
    · rcases ih (hran.consistent h) hrest with hexit | hgoes | ⟨steps, hsteps, hlen, hchain⟩
      · left
        simp only [Fs.run, hended, hexit, bind, Except.bind]
      · right
        left
        simp only [Fs.run, hended, hgoes, bind, Except.bind]
        rfl
      · refine Or.inr (Or.inr ⟨(op, t) :: steps, ?_, by simp [hlen], .cons hop hrun hchain⟩)
        simp only [Fs.run, hended, hsteps, bind, Except.bind]
        rfl

/-! ## There is always a way out -/

theorem length_lt_fullName (hn : n ≠ []) : q.length < (Fs.fullName q n).length := by
  have hpos := List.length_pos_of_ne_nil hn
  unfold Fs.fullName
  split <;> simp only [List.length_append, List.length_singleton] <;> omega

/-- With no files, the directory with the longest path is empty. -/
theorem exists_empty (h : Consistent s g) (hl : Listed s g) (hfiles : s.files = []) :
    ∃ q ∈ s.dirs, ∃ d, s.nameToInum q = some d ∧ g.children d = 0 := by
  obtain ⟨q, hq, hmax⟩ := s.dirs.toFinset.exists_max_image List.length
    ⟨['/'], List.mem_toFinset.mpr h.paths.root_mem⟩
  rw [List.mem_toFinset] at hq
  obtain ⟨d, hname, _⟩ := h.paths.dirs q hq
  refine ⟨q, hq, d, hname, Multiset.eq_zero_of_forall_notMem fun e he => ?_⟩
  obtain ⟨hvalid, hfile | hdir⟩ := hl.entry q hq d hname e he
  · rw [hfiles] at hfile
    cases hfile
  · -- its entry would be a directory with a longer path
    have hle := hmax _ (List.mem_toFinset.mpr hdir)
    exact absurd (length_lt_fullName hvalid.1) (Nat.not_lt.mpr hle)

/-- A letter can be entered in an empty directory. -/
theorem canEnter_empty {d b : Nat} {inode : Inode} {block : Block} (h : Storage s.toStore)
    (hdir : IsDir s g q d inode b block) (hempty : g.children d = 0) : CanEnter block ['a'] := by
  constructor
  · obtain ⟨kids, hlist, hchildren, _⟩ := hdir.dirBlock.entries
    rw [hempty] at hchildren
    obtain rfl : kids = [] := (Multiset.coe_eq_zero kids).mp hchildren.symm
    rw [(h.block b block hdir.data_eq).used, hlist]
    simp
  · rw [not_exists_iff hdir.dirBlock, hempty]
    exact ⟨⟨by decide, by decide⟩, fun e he => absurd he (Multiset.notMem_zero e)⟩

/-- The turn of an operation that returns 0 is the last. -/
theorem request_ne_none (hrun : op.run s = .ok (0, t)) : s.request [op] ≠ .ok none := by
  simp only [Fs.request, Fs.attempt, hrun, bind, Except.bind, pure, Except.pure]
  intro hnone
  split at hnone
  · cases hnone
  · rename_i hattempt
    split at hattempt
    · cases hattempt
    · split at hattempt
      · cases hattempt
      · cases hattempt
        cases hnone

/-- In every consistent state some operation that can be drawn ends the loop. -/
theorem exists_last (h : Consistent s g) (hl : Listed s g) :
    ∃ op : Op, op.Made ∧ op.Drawn s ∧ s.request [op] ≠ .ok none := by
  cases hfiles : s.files with
  | cons p ps =>
    -- a file can be unlinked
    have hp : p ∈ s.files := hfiles ▸ List.mem_cons_self
    obtain ⟨_, _, _, _, _, _, _, _, _, _, _, _, hdelete, _⟩ := deleteFile_unlinks h hp
    exact ⟨.unlink p, trivial, fun _ => hp, request_ne_none ((doDelete_eq hp).trans hdelete)⟩
  | nil =>
    obtain ⟨q, hq, d, hname, hempty⟩ := exists_empty h hl hfiles
    obtain ⟨d', inode, b, block, hdir⟩ := h.exists_isDir hq
    obtain rfl : d = d' := Option.some.inj (hname.symm.trans hdir.name)
    have hcan := canEnter_empty h.storage hdir hempty
    refine ⟨.creat q ['a'], ⟨'a', by decide, rfl⟩, ⟨hq, by decide, by decide⟩, ?_⟩
    rcases h.storage.ibits.alloc with ⟨i, hi, hunused, halloc⟩ | ⟨hall, halloc⟩
    · obtain ⟨old, hold, _⟩ := h.storage.free_inode hi hunused
      have hcreated := createFile_file h.storage hdir hcan halloc hold
      have hrun : ∃ t, (Op.creat q ['a']).run s = .ok (0, t) := by
        simp only [Op.run, Fs.doCreate, hcreated, bind, Except.bind, pure, Except.pure]
        exact ⟨_, rfl⟩
      obtain ⟨t, hrun⟩ := hrun
      exact request_ne_none hrun
    · -- no inode is free: the program exits
      have hnone := createFile_noInode h.storage hdir hcan halloc .f
      have hrun : (Op.creat q ['a']).run s = .ok (-1, s) := by
        simp only [Op.run, Fs.doCreate, hnone, bind, Except.bind, pure, Except.pure]
      have hfull := h.storage.ibits.numFree_eq_zero hall
      simp only [Fs.request, Fs.attempt, hrun, hfull, if_true, bind, Except.bind]
      intro hgoes
      cases hgoes

end Requests

/-- **What a run prints.** For every number of requests and all draws: either the program exits, or
the draws are not enough, or the states that are printed follow from each other by one successful
call each. It never aborts; and in no state does the loop of a request have to go on for ever. -/
theorem run_exact {numInodes numData : Nat} {s : Fs}
    (h : (workload numInodes numData).Reachable s) :
    (∀ k ops, s.AllDrawn ops → s.run k ops = .error .exit ∨ s.run k ops = .ok none ∨
      ∃ steps, s.run k ops = .ok (some steps) ∧ steps.length = k ∧ Steps s steps) ∧
    ∃ op : Op, op.Made ∧ op.Drawn s ∧ s.request [op] ≠ .ok none := by
  obtain ⟨g, hs, hl⟩ := listed_reachable h
  exact ⟨fun k ops hdrawn => run_steps hs hdrawn k, exists_last hs hl⟩

/-- The first draw is in vain, with no file to unlink; the second makes one. -/
theorem run_exact_fresh :
    ∃ t, (fresh 2 2).run 1 [.unlink ['/', 'a'], .creat ['/'] ['a']] = .error .exit ∧
      (fresh 3 2).run 1 [.unlink ['/', 'a'], .creat ['/'] ['a']] =
        .ok (some [(.creat ['/'] ['a'], t)]) ∧
      Steps (fresh 3 2) [(.creat ['/'] ['a'], t)] := by
  have hreach : (workload 3 2).Reachable (fresh 3 2) :=
    Lts.Reachable.of_init (new_ok (by decide) (by decide))
  have hroot : ['/'] ∈ (fresh 3 2).dirs := List.mem_singleton_self _
  have hdrawn : (fresh 3 2).AllDrawn [.unlink ['/', 'a'], .creat ['/'] ['a']] := by
    refine ⟨fun hne => absurd rfl hne, fun rc t hrun => ?_⟩
    cases (doDelete_nil (p := ['/', 'a']) (s := fresh 3 2) rfl).symm.trans hrun
    exact ⟨⟨hroot, by decide, by decide⟩, fun _ _ _ => trivial⟩
  obtain ⟨t, hrun⟩ : ∃ t, (fresh 3 2).run 1 [.unlink ['/', 'a'], .creat ['/'] ['a']] =
      .ok (some [(.creat ['/'] ['a'], t)]) := ⟨_, rfl⟩
  refine ⟨t, rfl, hrun, ?_⟩
  rcases (run_exact hreach).1 1 _ hdrawn with hexit | hgoes | ⟨steps, hsteps, _, hchain⟩
  · cases hrun.symm.trans hexit
  · cases hrun.symm.trans hgoes
  · cases hrun.symm.trans hsteps
    exact hchain

end OsLab.Vsfs
