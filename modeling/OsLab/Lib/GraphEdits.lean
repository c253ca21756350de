import OsLab.Lib.LinkGraph

/-!
# Edits of a directory graph

What an operation does to the entries of a directory graph can be read off the graph before and the
graph after it: the kinds of the nodes and the entries tell which edit it was.

* **`Edit`**, **`Edit.Makes`** -- an entry more, for one of three reasons (`Entry`), an entry less,
  or the same entries; and when an edit makes one graph out of another.
* **`Enters.unique`** -- two sets of entries tell which entry has come.
* **`Edit.eq_of_same`** -- two edits with the same effect on kinds and entries are the same edit.
-/

namespace OsLab.LinkGraph

variable {ν κ : Type*} [DecidableEq ν]

/-- What a new entry is for: a new file, a new directory, or a file that is there. -/
inductive Entry where
  | file
  | dir
  | link
  deriving DecidableEq

/-- The kinds of the node before and after it is entered. -/
def Entry.kinds : Entry → Option NodeKind × Option NodeKind
  | .file => (none, some .file)
  | .dir => (none, some .dir)
  | .link => (some .file, some .file)

/-- The kinds before and after tell the three reasons for a new entry apart. -/
theorem Entry.kinds_injective : Function.Injective Entry.kinds := by
  intro how how' h
  cases how <;> cases how' <;> first | rfl | cases h

def add (g : LinkGraph ν κ) : Entry → ν → κ → ν → LinkGraph ν κ
  | .file => g.addFile
  | .dir => g.addDir
  | .link => g.addLink

/-- Whatever the reason for it, a new entry is entered in the same way. -/
theorem add_children (g : LinkGraph ν κ) (how : Entry) (d : ν) (n : κ) (i : ν) :
    (g.add how d n i).children = g.enter d n i := by
  cases how <;> rfl

/-- An entry that is added leaves its node with the kind that goes with the reason. -/
theorem add_kind {g : LinkGraph ν κ} {how : Entry} {i : ν} (h : g.kind i = how.kinds.1) (d : ν)
    (n : κ) : (g.add how d n i).kind i = how.kinds.2 := by
  cases how with
  | file => exact Function.update_self ..
  | dir => exact Function.update_self ..
  | link => exact h

/-- One edit: an entry more, an entry less, or the same entries. -/
inductive Edit (ν κ : Type*) where
  | add (how : Entry) (d : ν) (n : κ) (i : ν)
  | unlink (d : ν) (n : κ) (i : ν)
  | keep

/-- The edit makes `g'` out of `g`. -/
def Edit.Makes (g : LinkGraph ν κ) : Edit ν κ → LinkGraph ν κ → Prop
  | .add how d n i, g' => g.kind i = how.kinds.1 ∧ g' = g.add how d n i
  | .unlink d n i, g' => ∃ rest, g.children d = (n, i) ::ₘ rest ∧ g' = g.unlink d i rest
  | .keep, g' => g' = g

/-- An entry that comes (`true`) or goes (`false`). -/
def Edit.change : Edit ν κ → Option (Bool × ν × κ × ν)
  | .add _ d n i => some (true, d, n, i)
  | .unlink d n i => some (false, d, n, i)
  | .keep => none

section Changes

variable {C C' : ν → Multiset (κ × ν)} {d d' i i' : ν} {n n' : κ}

/-- `C'` is `C` with the entry `(n, i)` in `d`. -/
def Enters (C C' : ν → Multiset (κ × ν)) (d : ν) (n : κ) (i : ν) : Prop :=
  C' = Function.update C d ((n, i) ::ₘ C d)

/-- The directory has one entry more, and no other directory changes its size. -/
theorem Enters.card (h : Enters C C' d n i) (k : ν) :
    (C' k).card = (C k).card + if k = d then 1 else 0 := by
  rw [show C' = _ from h]
  by_cases hk : k = d
  · subst hk
    simp
  · simp [hk]

/-- Something has changed when an entry has come. -/
theorem Enters.ne (h : Enters C C' d n i) : C' ≠ C := by
  intro heq
  have hcard := h.card d
  rw [heq, if_pos rfl] at hcard
  omega

/-- What adds an entry takes none away: the sizes go up, not down. -/
theorem Enters.not_back (h : Enters C C' d n i) : ¬ Enters C' C d' n' i' := by
  intro hback
  have hcard := h.card d
  have hcard' := hback.card d
  rw [if_pos rfl] at hcard
  omega

/-- The entry that has come is determined by the entries before and after: the directory by the
sizes, then name and node by the entries of this directory. -/
theorem Enters.unique (h : Enters C C' d n i) (h' : Enters C C' d' n' i') :
    d = d' ∧ n = n' ∧ i = i' := by
  have hd : d = d' := by
    by_contra hne
    have hcard := h.card d
    rw [h'.card d, if_neg hne, if_pos rfl] at hcard
    omega
  subst hd
  have hentry := congrFun (h.symm.trans h') d
  rw [Function.update_self, Function.update_self, Multiset.cons_inj_left] at hentry
  exact ⟨rfl, Prod.mk.inj hentry⟩

/-- `C'` is `C` with the change. -/
def Changes (C C' : ν → Multiset (κ × ν)) : Option (Bool × ν × κ × ν) → Prop
  | none => C' = C
  | some (true, d, n, i) => Enters C C' d n i
  | some (false, d, n, i) => Enters C' C d n i

/-- The change is determined as well: whether an entry has come, has gone or neither, and which. -/
theorem Changes.unique {c c' : Option (Bool × ν × κ × ν)} (h : Changes C C' c)
    (h' : Changes C C' c') : c = c' := by
  match c, c' with
  | none, none => rfl
  | none, some (true, _) => exact absurd h (Enters.ne h')
  | none, some (false, _) => exact absurd (Eq.symm h) (Enters.ne h')
  | some (true, _), none => exact absurd h' (Enters.ne h)
  | some (false, _), none => exact absurd (Eq.symm h') (Enters.ne h)
  | some (true, _), some (false, _) => exact absurd h' (Enters.not_back h)
  | some (false, _), some (true, _) => exact absurd h' (Enters.not_back h)
  | some (true, d, n, i), some (true, d', n', i') =>
    obtain ⟨rfl, rfl, rfl⟩ := Enters.unique h h'
    rfl
  | some (false, d, n, i), some (false, d', n', i') =>
    obtain ⟨rfl, rfl, rfl⟩ := Enters.unique h h'
    rfl

end Changes

variable {g g' h h' : LinkGraph ν κ} {e f : Edit ν κ}

/-- An edit makes the change that goes with it, and no other. -/
theorem Edit.Makes.changes (he : e.Makes g g') : Changes g.children g'.children e.change := by
  cases e with
  | add how d n i =>
    obtain ⟨_, rfl⟩ := he
    exact add_children g how d n i
  | unlink d n i =>
    obtain ⟨rest, hrest, rfl⟩ := he
    exact (enter_unlink hrest).symm
  | keep => exact congrArg LinkGraph.children he

/-- The edit can be read off the kinds and the entries before and after it: the entries tell the
change, and the kinds the reason for a new entry. -/
theorem Edit.eq_of_same (hkind : g.kind = h.kind) (hchildren : g.children = h.children)
    (hkind' : g'.kind = h'.kind) (hchildren' : g'.children = h'.children) (he : e.Makes g g')
    (hf : f.Makes h h') : e = f := by
  have hchange : e.change = f.change := by
    have hfch := hf.changes
    rw [← hchildren, ← hchildren'] at hfch
    exact he.changes.unique hfch
  match e, f with
  | .add how d n i, .add how' d' n' i' =>
    obtain ⟨rfl, rfl, rfl⟩ : d = d' ∧ n = n' ∧ i = i' := by simpa [Edit.change] using hchange
    -- the kinds of the node tell what the entry is for
    obtain ⟨hg, rfl⟩ := he
    obtain ⟨hh, rfl⟩ := hf
    have hbefore : how.kinds.1 = how'.kinds.1 := by rw [← hg, ← hh, hkind]
    have hafter : how.kinds.2 = how'.kinds.2 := by
      rw [← add_kind hg d n, ← add_kind hh d n, hkind']
    rw [Entry.kinds_injective (Prod.ext hbefore hafter)]
  | .unlink d n i, .unlink d' n' i' =>
    obtain ⟨rfl, rfl, rfl⟩ : d = d' ∧ n = n' ∧ i = i' := by simpa [Edit.change] using hchange
    rfl
  | .keep, .keep => rfl
  | .add .., .unlink .. => simp [Edit.change] at hchange
  | .add .., .keep => cases hchange
  | .unlink .., .add .. => simp [Edit.change] at hchange
  | .unlink .., .keep => cases hchange
  | .keep, .add .. => cases hchange
  | .keep, .unlink .. => cases hchange

end OsLab.LinkGraph
