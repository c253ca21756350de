import OsLab.Vsfs.Fs

/-!
# Bitmaps, inodes and blocks of VSFS

The part of the store that does not look into directories: the bitmaps mark what is in use, and
every used block is the one block of one used inode.

* **`Bitmap.Agrees`** -- the bitmap marks just what is used, and counts it; `alloc`, `free` and
  `markAllocated` under it.
* **`Storage`** -- the invariant of inodes and blocks.
* **`setInode`**, **`setBlock`**, **`setBoth`** -- the changes that the calls make, each with what
  it must keep.
-/

namespace OsLab.Vsfs

theorem getElem?_set_of_some {α : Type*} {xs : List α} {i : Nat} {x : α} (h : xs[i]? = some x)
    (y : α) (j : Nat) : (xs.set i y)[j]? = if i = j then some y else xs[j]? := by
  obtain ⟨hi, _⟩ := List.getElem?_eq_some_iff.mp h
  rw [List.getElem?_set]
  simp [hi]

/-- An entry that is overwritten and put back. -/
theorem set_set_of_some {α : Type*} {xs : List α} {i : Nat} {x : α} (h : xs[i]? = some x) (y : α) :
    (xs.set i y).set i x = xs := by
  obtain ⟨hi, rfl⟩ := List.getElem?_eq_some_iff.mp h
  rw [List.set_set, List.set_getElem_self]

/-! ## Bitmaps -/

/-- The bitmap has `n` bits and marks what is `used`. -/
structure Bitmap.Agrees (b : Bitmap) (n : Nat) (used : Nat → Prop) : Prop where
  size : b.size = n
  length : b.bmap.length = n
  bits : ∀ i x, b.bmap[i]? = some x → (x = 1 ∧ used i) ∨ (x = 0 ∧ ¬ used i)
  count : b.numAllocated = b.bmap.count 1

/-- The bitmap with bit `i` set. -/
def Bitmap.marked (b : Bitmap) (i : Nat) : Bitmap :=
  { b with bmap := b.bmap.set i 1, numAllocated := b.numAllocated + 1 }

/-- The bitmap with bit `i` cleared. -/
def Bitmap.unmarked (b : Bitmap) (i : Nat) : Bitmap :=
  { b with numAllocated := b.numAllocated - 1, bmap := b.bmap.set i 0 }

namespace Bitmap.Agrees

variable {b : Bitmap} {n i : Nat} {used used' : Nat → Prop}

theorem new (n : Nat) : (Bitmap.new n).Agrees n fun _ => False where
  size := rfl
  length := List.length_replicate
  bits i x h := by
    have hx : x = 0 := List.eq_of_mem_replicate (List.mem_of_getElem? h)
    exact Or.inr ⟨hx, id⟩
  count := by simp [Bitmap.new, List.count_replicate]

theorem congr (h : b.Agrees n used) (hused : ∀ i < n, used' i ↔ used i) : b.Agrees n used' where
  size := h.size
  length := h.length
  bits i x hx := by
    obtain ⟨hi, _⟩ := List.getElem?_eq_some_iff.mp hx
    rw [hused i (h.length ▸ hi)]
    exact h.bits i x hx
  count := h.count

theorem bit_of_used (h : b.Agrees n used) (hi : i < n) (hused : used i) :
    b.bmap[i]? = some 1 := by
  have hlt : i < b.bmap.length := h.length ▸ hi
  have hget := List.getElem?_eq_getElem hlt
  rcases h.bits i _ hget with ⟨hx, _⟩ | ⟨_, hnot⟩
  · rw [hget, hx]
  · exact absurd hused hnot

theorem bit_of_not_used (h : b.Agrees n used) (hi : i < n) (hused : ¬ used i) :
    b.bmap[i]? = some 0 := by
  have hlt : i < b.bmap.length := h.length ▸ hi
  have hget := List.getElem?_eq_getElem hlt
  rcases h.bits i _ hget with ⟨_, hin⟩ | ⟨hx, _⟩
  · exact absurd hin hused
  · rw [hget, hx]

/-- Setting the bit of something unused makes it used. -/
theorem set_one (h : b.Agrees n used) (hi : i < n) (hused : ¬ used i) :
    (b.marked i).Agrees n fun j => j = i ∨ used j := by
  have hbit := h.bit_of_not_used hi hused
  obtain ⟨hlt, hget⟩ := List.getElem?_eq_some_iff.mp hbit
  refine ⟨h.size, by simp [Bitmap.marked, h.length], fun j x hx => ?_, ?_⟩
  · rw [Bitmap.marked, getElem?_set_of_some hbit] at hx
    split at hx
    · exact Or.inl ⟨(Option.some.inj hx).symm, Or.inl (Eq.symm ‹_›)⟩
    · rcases h.bits j x hx with ⟨hone, hin⟩ | ⟨hzero, hnot⟩
      · exact Or.inl ⟨hone, Or.inr hin⟩
      · exact Or.inr ⟨hzero, by rintro (rfl | hin); exacts [‹¬ _› rfl, hnot hin]⟩
  · simp only [Bitmap.marked, List.count_set hlt, hget, h.count]
    simp

/-- Clearing the bit of something used makes it unused. -/
theorem set_zero (h : b.Agrees n used) (hi : i < n) (hused : used i) :
    (b.unmarked i).Agrees n fun j => j ≠ i ∧ used j := by
  have hbit := h.bit_of_used hi hused
  obtain ⟨hlt, hget⟩ := List.getElem?_eq_some_iff.mp hbit
  have hpos : 1 ≤ b.bmap.count 1 := List.count_pos_iff.mpr (hget ▸ List.getElem_mem hlt)
  refine ⟨h.size, by simp [Bitmap.unmarked, h.length], fun j x hx => ?_, ?_⟩
  · rw [Bitmap.unmarked, getElem?_set_of_some hbit] at hx
    split at hx
    · exact Or.inr ⟨(Option.some.inj hx).symm, fun hin => hin.1 (Eq.symm ‹_›)⟩
    · rcases h.bits j x hx with ⟨hone, hin⟩ | ⟨hzero, hnot⟩
      · exact Or.inl ⟨hone, fun heq => ‹¬ _› heq.symm, hin⟩
      · exact Or.inr ⟨hzero, fun hin => hnot hin.2⟩
  · simp only [Bitmap.unmarked, List.count_set hlt, hget, h.count]
    simp
    omega

/-- `alloc` returns an unused number, the first, or finds all in use. -/
theorem alloc (h : b.Agrees n used) :
    (∃ i < n, ¬ used i ∧ b.alloc = (some i, b.marked i)) ∨
      ((∀ i < n, used i) ∧ b.alloc = (none, b)) := by
  cases hfind : b.bmap.findIdx? (· = 0) with
  | some i =>
    obtain ⟨hlt, hzero, _⟩ := List.findIdx?_eq_some_iff_getElem.mp hfind
    have hget : b.bmap[i]? = some 0 := by
      rw [List.getElem?_eq_getElem hlt]
      simpa using hzero
    refine Or.inl ⟨i, h.length ▸ hlt, ?_, by rw [Bitmap.alloc, hfind, Bitmap.marked]⟩
    rcases h.bits i 0 hget with ⟨hone, _⟩ | ⟨_, hnot⟩
    · cases hone
    · exact hnot
  | none =>
    rw [List.findIdx?_eq_none_iff] at hfind
    refine Or.inr ⟨fun i hi => ?_, by rw [Bitmap.alloc, List.findIdx?_eq_none_iff.mpr hfind]⟩
    by_contra hused
    have hmem := List.mem_of_getElem? (h.bit_of_not_used hi hused)
    simpa using hfind 0 hmem

/-- `free` of something used succeeds: its assertion is that the bit is set. -/
theorem free_ok (h : b.Agrees n used) (hi : i < n) (hused : used i) :
    b.free i = .ok (b.unmarked i) := by
  have hbit : index b.bmap (some i) = .ok 1 := index_some_eq_ok.mpr (h.bit_of_used hi hused)
  simp only [Bitmap.free, hbit, bind, Except.bind, decide_true, assert_true]
  rfl

/-- `markAllocated` of something unused succeeds. -/
theorem markAllocated_ok (h : b.Agrees n used) (hi : i < n) (hused : ¬ used i) :
    b.markAllocated i = .ok (b.marked i) := by
  have hbit : index b.bmap (some i) = .ok 0 := index_some_eq_ok.mpr (h.bit_of_not_used hi hused)
  simp only [Bitmap.markAllocated, hbit, bind, Except.bind, decide_true, assert_true]
  rfl

theorem unmarked_marked (h : b.Agrees n used) (hi : i < n) (hused : ¬ used i) :
    (b.marked i).unmarked i = b := by
  have hset := set_set_of_some (h.bit_of_not_used hi hused) 1
  simp only [Bitmap.marked, Bitmap.unmarked, hset]
  simp

/-- Freeing what has just been allocated gives the bitmap back. -/
theorem free_alloc (h : b.Agrees n used) (hi : i < n) (hused : ¬ used i) :
    (b.marked i).free i = .ok b := by
  rw [(h.set_one hi hused).free_ok hi (Or.inl rfl), h.unmarked_marked hi hused]

end Bitmap.Agrees

/-! ## Inodes and blocks -/

/-- Inode `i` is not free. -/
def Store.InodeUsed (v : Store) (i : Nat) : Prop :=
  ∃ inode : Inode, v.inodes[i]? = some inode ∧ inode.ftype ≠ .free

/-- Block `b` is not free. -/
def Store.BlockUsed (v : Store) (b : Nat) : Prop :=
  ∃ block : Block, v.data[b]? = some block ∧ block.ftype ≠ .free

/-- A block that holds no directory has no entries; a directory counts its entries. -/
structure Block.WellFormed (b : Block) : Prop where
  maxUsed : b.maxUsed = 32
  used : b.dirUsed = b.dirList.length
  used_le : b.dirUsed ≤ 32
  blank : b.ftype ≠ .d → b.dirList = []

structure Storage (v : Store) : Prop where
  inodes_length : v.inodes.length = v.numInodes
  data_length : v.data.length = v.numData
  ibits : v.ibitmap.Agrees v.numInodes v.InodeUsed
  dbits : v.dbitmap.Agrees v.numData v.BlockUsed
  block : ∀ (b : Nat) block, v.data[b]? = some block → block.WellFormed
  free_addr : ∀ (i : Nat) inode, v.inodes[i]? = some inode → inode.ftype = .free →
    inode.addr = none
  addr_block : ∀ (i : Nat) inode b, v.inodes[i]? = some inode → inode.addr = some b →
    ∃ block, v.data[b]? = some block ∧ block.ftype = inode.ftype
  addr_inj : ∀ (i j : Nat) inode inode' b, v.inodes[i]? = some inode →
    v.inodes[j]? = some inode' → inode.addr = some b → inode'.addr = some b → i = j
  owned : ∀ b, v.BlockUsed b → ∃ (i : Nat) (inode : Inode),
    v.inodes[i]? = some inode ∧ inode.addr = some b

section Sets

variable {v : Store} {i b : Nat} {inode inode' : Inode} {block block' : Block}

theorem inodeUsed_iff (hi : v.inodes[i]? = some inode) : v.InodeUsed i ↔ inode.ftype ≠ .free := by
  simp [Store.InodeUsed, hi]

theorem blockUsed_iff (hb : v.data[b]? = some block) : v.BlockUsed b ↔ block.ftype ≠ .free := by
  simp [Store.BlockUsed, hb]

/-- What is used after a change to one inode. -/
theorem inodeUsed_set (hi : v.inodes[i]? = some inode) (j : Nat) :
    Store.InodeUsed { v with inodes := v.inodes.set i inode' } j ↔
      if i = j then inode'.ftype ≠ .free else v.InodeUsed j := by
  unfold Store.InodeUsed
  simp only [getElem?_set_of_some hi]
  by_cases hij : i = j <;> simp [hij]

/-- What is used after a change to one block. -/
theorem blockUsed_set (hb : v.data[b]? = some block) (c : Nat) :
    Store.BlockUsed { v with data := v.data.set b block' } c ↔
      if b = c then block'.ftype ≠ .free else v.BlockUsed c := by
  unfold Store.BlockUsed
  simp only [getElem?_set_of_some hb]
  by_cases hbc : b = c <;> simp [hbc]

end Sets

namespace Storage

variable {v : Store} {i b : Nat} {inode inode' : Inode} {block block' : Block}
  {ibitmap dbitmap : Bitmap}

theorem inode_lt (h : Storage v) (hi : v.inodes[i]? = some inode) : i < v.numInodes := by
  obtain ⟨hlt, _⟩ := List.getElem?_eq_some_iff.mp hi
  exact h.inodes_length ▸ hlt

theorem block_lt (h : Storage v) (hb : v.data[b]? = some block) : b < v.numData := by
  obtain ⟨hlt, _⟩ := List.getElem?_eq_some_iff.mp hb
  exact h.data_length ▸ hlt

/-- A block with an address in a used inode is used. -/
theorem addr_used (h : Storage v) (hi : v.inodes[i]? = some inode) (hb : inode.addr = some b) :
    inode.ftype ≠ .free ∧ v.BlockUsed b := by
  have hlive : inode.ftype ≠ .free := by
    intro hfree
    rw [h.free_addr i inode hi hfree] at hb
    cases hb
  obtain ⟨block, hblock, htype⟩ := h.addr_block i inode b hi hb
  exact ⟨hlive, block, hblock, htype ▸ hlive⟩

/-- An inode changes and keeps its address. -/
theorem setInode (h : Storage v) (hi : v.inodes[i]? = some inode) (haddr : inode'.addr = inode.addr)
    (htype : inode.addr ≠ none → inode'.ftype = inode.ftype)
    (hbits : ibitmap.Agrees v.numInodes fun j =>
      if i = j then inode'.ftype ≠ .free else v.InodeUsed j) :
    Storage { v with ibitmap := ibitmap, inodes := v.inodes.set i inode' } := by
  have hget := getElem?_set_of_some hi inode'
  refine ⟨by simp [h.inodes_length], h.data_length,
    hbits.congr fun j _ => inodeUsed_set hi j, h.dbits, h.block, ?_, ?_, ?_, ?_⟩
  -- A free inode has no address, before as after.
  · intro j x hj hfree
    rw [hget] at hj
    split at hj
    · obtain rfl : inode' = x := Option.some.inj hj
      by_contra hne
      rw [haddr] at hne
      exact hne (h.free_addr i inode hi (htype hne ▸ hfree))
    · exact h.free_addr j x hj hfree
  · intro j x c hj hc
    rw [hget] at hj
    split at hj
    · obtain rfl : inode' = x := Option.some.inj hj
      rw [haddr] at hc
      rw [htype (by simp [hc])]
      exact h.addr_block i inode c hi hc
    · exact h.addr_block j x c hj hc
  · -- an address belongs to the same inode number as before
    have hold : ∀ (j : Nat) x c, (v.inodes.set i inode')[j]? = some x → x.addr = some c →
        ∃ y, v.inodes[j]? = some y ∧ y.addr = some c := by
      intro j x c hj hc
      rw [hget] at hj
      split at hj
      · obtain rfl : inode' = x := Option.some.inj hj
        exact ⟨inode, ‹i = j› ▸ hi, haddr ▸ hc⟩
      · exact ⟨x, hj, hc⟩
    intro j k x y c hj hk hjc hkc
    obtain ⟨x', hx', hxc⟩ := hold j x c hj hjc
    obtain ⟨y', hy', hyc⟩ := hold k y c hk hkc
    exact h.addr_inj j k x' y' c hx' hy' hxc hyc
  -- A block in use has its owner still, the changed inode with the same address if it was the one.
  · intro c hc
    obtain ⟨j, x, hj, hxc⟩ := h.owned c hc
    refine ⟨j, if i = j then inode' else x, ?_, ?_⟩
    · rw [hget]
      split <;> simp_all
    · split
      · subst_vars
        obtain rfl : inode = x := Option.some.inj (hi.symm.trans hj)
        rw [haddr, hxc]
      · exact hxc

/-- A link count is nothing to the storage. -/
theorem setRefCnt (h : Storage v) (hi : v.inodes[i]? = some inode) (refCnt : Int) :
    Storage { v with inodes := v.inodes.set i { inode with refCnt := refCnt } } := by
  refine h.setInode hi rfl (fun _ => rfl) (h.ibits.congr fun j _ => ?_)
  split
  · subst_vars
    exact (inodeUsed_iff hi).symm
  · rfl

/-- A block changes and keeps its type. -/
theorem setBlock (h : Storage v) (hb : v.data[b]? = some block) (htype : block'.ftype = block.ftype)
    (hwf : block'.WellFormed) : Storage { v with data := v.data.set b block' } := by
  have hget := getElem?_set_of_some hb block'
  have hused : ∀ c, Store.BlockUsed { v with data := v.data.set b block' } c ↔ v.BlockUsed c := by
    intro c
    rw [blockUsed_set hb]
    split
    · subst_vars
      rw [blockUsed_iff hb, htype]
    · rfl
  refine ⟨h.inodes_length, by simp [h.data_length], h.ibits, h.dbits.congr fun c _ => hused c, ?_,
    h.free_addr, ?_, h.addr_inj, fun c hc => h.owned c ((hused c).mp hc)⟩
  · intro c x hc
    rw [hget] at hc
    split at hc
    · obtain rfl : block' = x := Option.some.inj hc
      exact hwf
    · exact h.block c x hc
  · intro j x c hj hc
    obtain ⟨y, hy, hyt⟩ := h.addr_block j x c hj hc
    refine ⟨if b = c then block' else y, ?_, ?_⟩
    · rw [hget]
      split <;> simp_all
    · split
      · subst_vars
        obtain rfl : block = y := Option.some.inj (hb.symm.trans hy)
        rw [htype, hyt]
      · exact hyt

/-- An inode and a block that is its own or free change together. -/
theorem setBoth (h : Storage v) (hi : v.inodes[i]? = some inode) (hb : v.data[b]? = some block)
    (haddr : inode.addr = none ∨ inode.addr = some b) (hown : block.ftype ≠ .free → inode.addr = some b)
    (haddr' : inode'.addr = none ∧ block'.ftype = .free ∨
      inode'.addr = some b ∧ block'.ftype = inode'.ftype ∧ inode'.ftype ≠ .free)
    (hwf : block'.WellFormed)
    (hibits : ibitmap.Agrees v.numInodes fun j =>
      if i = j then inode'.ftype ≠ .free else v.InodeUsed j)
    (hdbits : dbitmap.Agrees v.numData fun c =>
      if b = c then block'.ftype ≠ .free else v.BlockUsed c) :
    Storage { v with
      ibitmap := ibitmap, inodes := v.inodes.set i inode'
      dbitmap := dbitmap, data := v.data.set b block' } := by
  have hget := getElem?_set_of_some hi inode'
  have hgetb := getElem?_set_of_some hb block'
  -- no other inode has the block
  have hother : ∀ (j : Nat) x, i ≠ j → v.inodes[j]? = some x → x.addr ≠ some b := by
    intro j x hij hj hc
    obtain ⟨hlive, y, hy, hyt⟩ := h.addr_used hj hc
    obtain rfl : block = y := Option.some.inj (hb.symm.trans hy)
    exact hij (h.addr_inj i j inode x b hi hj (hown hyt) hc)
  refine ⟨by simp [h.inodes_length], by simp [h.data_length],
    hibits.congr fun j _ => inodeUsed_set hi j, hdbits.congr fun c _ => blockUsed_set hb c,
    ?_, ?_, ?_, ?_, ?_⟩
  · intro c x hc
    rw [hgetb] at hc
    split at hc
    · obtain rfl : block' = x := Option.some.inj hc
      exact hwf
    · exact h.block c x hc
  · intro j x hj hfree
    rw [hget] at hj
    split at hj
    · obtain rfl : inode' = x := Option.some.inj hj
      rcases haddr' with ⟨hnone, _⟩ | ⟨_, _, hlive⟩
      · exact hnone
      · exact absurd hfree hlive
    · exact h.free_addr j x hj hfree
  · intro j x c hj hc
    rw [hget] at hj
    rw [hgetb]
    split at hj
    · obtain rfl : inode' = x := Option.some.inj hj
      rcases haddr' with ⟨hnone, _⟩ | ⟨hsome, htype, _⟩
      · rw [hnone] at hc
        cases hc
      · obtain rfl : b = c := Option.some.inj (hsome.symm.trans hc)
        exact ⟨block', if_pos rfl, htype⟩
    · have hbc : b ≠ c := by
        rintro rfl
        exact hother j x ‹_› hj hc
      rw [if_neg hbc]
      exact h.addr_block j x c hj hc
  · intro j k x y c hj hk hjc hkc
    rw [hget] at hj hk
    have hnew : ∀ x : Inode, inode' = x → x.addr = some c → c = b := by
      rintro x rfl hxc
      rcases haddr' with ⟨hnone, _⟩ | ⟨hsome, _⟩
      · rw [hnone] at hxc
        cases hxc
      · exact (Option.some.inj (hsome.symm.trans hxc)).symm
    split at hj <;> split at hk
    · exact ‹i = j›.symm.trans ‹i = k›
    · obtain rfl := hnew x (Option.some.inj hj) hjc
      exact absurd hkc (hother k y ‹_› hk)
    · obtain rfl := hnew y (Option.some.inj hk) hkc
      exact absurd hjc (hother j x ‹_› hj)
    · exact h.addr_inj j k x y c hj hk hjc hkc
  · intro c hc
    replace hc := (blockUsed_set hb c).mp hc
    split at hc
    · subst_vars
      refine ⟨i, inode', (hget i).trans (if_pos rfl), ?_⟩
      rcases haddr' with ⟨_, hfree⟩ | ⟨hsome, _⟩
      · exact absurd hfree hc
      · exact hsome
    · obtain ⟨j, x, hj, hxc⟩ := h.owned c hc
      refine ⟨j, x, ?_, hxc⟩
      have hij : i ≠ j := by
        rintro rfl
        obtain rfl : inode = x := Option.some.inj (hi.symm.trans hj)
        rcases haddr with hnone | hsome
        · rw [hnone] at hxc
          cases hxc
        · exact ‹¬ b = c› (Option.some.inj (hsome.symm.trans hxc))
      show (v.inodes.set i inode')[j]? = some x
      rw [hget, if_neg hij, hj]

end Storage

end OsLab.Vsfs
