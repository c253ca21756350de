import OsLab.Lib.GraphEdits
import OsLab.Vsfs.Contents
import OsLab.Vsfs.Requests

/-!
# What VSFS prints of a state

`dump` prints the bitmaps, the inodes and the blocks. With the names and data of the workload the
text tells which inodes there are, which block each has, and what is in the blocks.

* **`Inode.dump`**, **`Block.dump`**, **`Store.dump`** -- the text, character by character.
* **`inode_of_dump`**, **`entriesText_injective`** -- what can be read off one item.
* **`Closed`**, **`items_injective`** -- the items of a line end where their brackets close, so the
  line can be taken apart.
* **`Store.Readable`**, **`Store.Alike`**, **`alike_of_dump`** -- stores that print the same are
  alike, if their names and data have no bracket, comma or blank.
-/

namespace OsLab.Vsfs

/-! ## The text -/

/-- `str(n)` for a natural number -/
def decimal (n : Nat) : Str := Nat.toDigits 10 n

def Bitmap.dump (b : Bitmap) : Str := b.bmap.flatMap decimal

/-- `(name,inum)` -/
def short (entry : Str × Nat) : Str := '(' :: (entry.1 ++ ',' :: (decimal entry.2 ++ [')']))

def Block.dump (b : Block) : Str :=
  match b.ftype with
  | .free => ['[', ']']
  | .d =>
    let rc := b.dirList.foldl
      (fun rc entry => if rc = [] then short entry else rc ++ ' ' :: short entry) []
    '[' :: (rc ++ [']'])
  | .f => '[' :: (b.data ++ [']'])

def FType.text : FType → Str
  | .free => ['f', 'r', 'e', 'e']
  | .d => ['d']
  | .f => ['f']

/-- `%s` of an address: -1 is `none`. -/
def addrText : Option Nat → Str
  | some addr => decimal addr
  | none => ['-', '1']

def Inode.dump (i : Inode) : Str :=
  match i.ftype with
  | .free => ['[', ']']
  | ftype =>
    '[' :: (ftype.text ++ ' ' :: 'a' :: ':' :: (addrText i.addr ++
      ' ' :: 'r' :: ':' :: ((toString i.refCnt).toList ++ [']'])))

/-- `dump`, line by line. The items of a line that ends in a comma have a blank in front. -/
def Store.dump (v : Store) : List Str :=
  ["inode bitmap  ".toList ++ v.ibitmap.dump,
    "inodes       ".toList ++ v.inodes.flatMap (fun i => ' ' :: i.dump) ++ [' '],
    "data bitmap   ".toList ++ v.dbitmap.dump,
    "data         ".toList ++ v.data.flatMap (fun b => ' ' :: b.dump) ++ [' ']]

/-! ## Reading numbers and items -/

/-- Different numbers have different digits. -/
theorem decimal_injective : Function.Injective decimal := by
  intro m n h
  have hread := congrArg (fun l => Nat.ofDigitChars 10 l 0) h
  simpa only [decimal, Nat.ofDigitChars_toDigits (by decide : 1 < 10) (by decide)] using hread

theorem isDigit_of_mem_decimal {n : Nat} {c : Char} (h : c ∈ decimal n) : c.isDigit :=
  Nat.isDigit_of_mem_toDigits (by decide) (by decide) h

theorem not_mem_decimal {n : Nat} {c : Char} (h : c.isDigit = false) : c ∉ decimal n := by
  intro hmem
  rw [isDigit_of_mem_decimal hmem] at h
  cases h

/-- What stands before the first separator can be told, and so can what stands behind it. -/
theorem eq_before {α : Type*} {sep : α} {xs ys zs ws : List α} (hx : sep ∉ xs) (hy : sep ∉ ys)
    (h : xs ++ sep :: zs = ys ++ sep :: ws) : xs = ys ∧ zs = ws := by
  induction xs generalizing ys with
  | nil =>
    cases ys with
    | nil => exact ⟨rfl, (List.cons.inj h).2⟩
    | cons y ys => exact absurd (List.mem_cons.mpr (Or.inl (List.cons.inj h).1)) hy
  | cons x xs ih =>
    cases ys with
    | nil => exact absurd (List.mem_cons.mpr (Or.inl (List.cons.inj h).1.symm)) hx
    | cons y ys =>
      obtain ⟨rfl, htail⟩ := List.cons.inj h
      rw [List.mem_cons, not_or] at hx hy
      obtain ⟨rfl, hrest⟩ := ih hx.2 hy.2 htail
      exact ⟨rfl, hrest⟩

theorem addrText_injective : Function.Injective addrText := by
  have hminus : ∀ n, addrText (some n) ≠ addrText none := by
    intro n h
    have hmem : '-' ∈ decimal n := by
      rw [show decimal n = ['-', '1'] from h]
      exact List.mem_cons_self
    exact not_mem_decimal (by decide) hmem
  intro a b h
  match a, b with
  | none, none => rfl
  | some m, some n => rw [decimal_injective h]
  | some m, none => exact absurd h (hminus m)
  | none, some n => exact absurd h.symm (hminus n)

theorem blank_not_mem_addrText (a : Option Nat) : ' ' ∉ addrText a := by
  cases a with
  | none => decide
  | some n => exact not_mem_decimal (by decide)

theorem inode_dump_free {x : Inode} (h : x.ftype = .free) : x.dump = ['[', ']'] := by
  simp only [Inode.dump, h]

/-- The item of an inode in use, taken apart at its blanks and colons. -/
theorem inode_dump_live {x : Inode} (h : x.ftype ≠ .free) :
    x.dump = '[' :: (x.ftype.text ++ ' ' :: 'a' :: ':' :: (addrText x.addr ++
      ' ' :: 'r' :: ':' :: ((toString x.refCnt).toList ++ [']']))) := by
  cases htype : x.ftype with
  | free => exact absurd htype h
  | d => simp only [Inode.dump, htype]
  | f => simp only [Inode.dump, htype]

theorem ftype_text_injective : Function.Injective FType.text := by
  intro x y h
  cases x <;> cases y <;> first | rfl | cases h

theorem blank_not_mem_text (t : FType) : ' ' ∉ t.text := by
  cases t <;> decide

/-- An item of an inode in use is longer than `[]`. -/
theorem inode_dump_ne {x : Inode} (h : x.ftype ≠ .free) : x.dump ≠ ['[', ']'] := by
  rw [inode_dump_live h]
  intro heq
  have hlen := congrArg List.length heq
  simp only [List.length_cons, List.length_append, List.length_nil] at hlen
  omega

/-- The type and the address can be read off an inode's item. -/
theorem inode_of_dump {x y : Inode} (h : x.dump = y.dump) :
    x.ftype = y.ftype ∧ (x.ftype ≠ .free → x.addr = y.addr) := by
  by_cases hx : x.ftype = .free
  · have hy : y.ftype = .free := by
      by_contra hy
      exact inode_dump_ne hy (h.symm.trans (inode_dump_free hx))
    exact ⟨hx.trans hy.symm, fun hne => absurd hx hne⟩
  · have hy : y.ftype ≠ .free := fun hy => inode_dump_ne hx (h.trans (inode_dump_free hy))
    rw [inode_dump_live hx, inode_dump_live hy] at h
    -- first the type, up to a blank, then the address, up to the next
    obtain ⟨htext, hrest⟩ := eq_before (blank_not_mem_text _) (blank_not_mem_text _)
      (List.cons.inj h).2
    have haddr := (List.cons.inj (List.cons.inj hrest).2).2
    obtain ⟨haddr, _⟩ := eq_before (blank_not_mem_addrText _) (blank_not_mem_addrText _) haddr
    exact ⟨ftype_text_injective htext, fun _ => addrText_injective haddr⟩

/-! ## Reading a directory's block -/

/-- An entry that the text shows unambiguously. -/
def PlainEntry (e : Str × Nat) : Prop := ' ' ∉ e.1 ∧ ',' ∉ e.1 ∧ ']' ∉ e.1

/-- An entry with a plain name can be read off its text. -/
theorem short_injective {e e' : Str × Nat} (he : PlainEntry e) (he' : PlainEntry e')
    (h : short e = short e') : e = e' := by
  obtain ⟨hname, hnum⟩ := eq_before he.2.1 he'.2.1 (List.cons.inj h).2
  exact Prod.ext hname (decimal_injective (List.append_cancel_right hnum))

theorem not_mem_short {e : Str × Nat} {c : Char} (hname : c ∉ e.1) (hdigit : c.isDigit = false)
    (hother : c ≠ '(' ∧ c ≠ ',' ∧ c ≠ ')') : c ∉ short e := by
  simp [short, hname, not_mem_decimal hdigit, hother.1, hother.2.1, hother.2.2]

/-- The text of the entries, each with a blank in front but the first, as the loop of `block.dump`
builds it. -/
theorem foldl_short (es : List (Str × Nat)) (rc : Str) (hrc : rc ≠ []) :
    es.foldl (fun rc entry => if rc = [] then short entry else rc ++ ' ' :: short entry) rc =
      rc ++ Path.render ' ' (es.map short) := by
  induction es generalizing rc with
  | nil => simp
  | cons e es ih =>
    rw [List.foldl_cons, if_neg hrc, ih _ (by simp), List.map_cons, Path.render_cons]
    simp only [List.append_assoc, List.cons_append]

def entriesText (es : List (Str × Nat)) : Str :=
  es.foldl (fun rc entry => if rc = [] then short entry else rc ++ ' ' :: short entry) []

theorem entriesText_cons (e : Str × Nat) (es : List (Str × Nat)) :
    entriesText (e :: es) = short e ++ Path.render ' ' (es.map short) :=
  foldl_short es (short e) (by simp [short])

theorem map_short_injective {es es' : List (Str × Nat)} (hes : ∀ e ∈ es, PlainEntry e)
    (hes' : ∀ e ∈ es', PlainEntry e) (h : es.map short = es'.map short) : es = es' := by
  induction es generalizing es' with
  | nil => exact (List.map_eq_nil_iff.mp h.symm).symm
  | cons e es ih =>
    cases es' with
    | nil => cases h
    | cons e' es' =>
      rw [List.forall_mem_cons] at hes hes'
      obtain ⟨hhead, htail⟩ := List.cons.inj h
      rw [short_injective hes.1 hes'.1 hhead, ih hes.2 hes'.2 htail]

/-- Plain entries can be read off the text of a directory's block. -/
theorem entriesText_injective {es es' : List (Str × Nat)} (hes : ∀ e ∈ es, PlainEntry e)
    (hes' : ∀ e ∈ es', PlainEntry e) (h : entriesText es = entriesText es') : es = es' := by
  have hblank : ∀ es : List (Str × Nat), (∀ e ∈ es, PlainEntry e) → ∀ c ∈ es.map short, ' ' ∉ c := by
    intro es hes c hc
    obtain ⟨e, he, rfl⟩ := List.mem_map.mp hc
    exact not_mem_short (hes e he).1 (by decide) (by decide)
  cases es with
  | nil =>
    cases es' with
    | nil => rfl
    | cons e' es' =>
      rw [entriesText_cons] at h
      cases h
  | cons e es =>
    cases es' with
    | nil =>
      rw [entriesText_cons] at h
      cases h
    | cons e' es' =>
      -- with a blank in front of the first entry too, the text is a path
      have hrender : ∀ e es, ' ' :: entriesText (e :: es) = Path.render ' ' ((e :: es).map short) :=
        fun e es => congrArg (' ' :: ·) (entriesText_cons e es)
      have hpath := congrArg (' ' :: ·) h
      simp only [hrender] at hpath
      exact map_short_injective hes hes'
        (Path.render_injective (hblank _ hes) (hblank _ hes') hpath)

theorem block_dump_dir {block : Block} (h : block.ftype = .d) :
    block.dump = '[' :: (entriesText block.dirList ++ [']']) := by
  simp only [Block.dump, h]
  rfl

theorem block_dump_file {block : Block} (h : block.ftype = .f) :
    block.dump = '[' :: (block.data ++ [']']) := by
  simp only [Block.dump, h]

/-! ## Reading a line -/

/-- The text ends where its bracket closes. -/
def Closed (text : Str) : Prop := ∃ body, text = body ++ [']'] ∧ ']' ∉ body

theorem exists_bodies {items : List Str} (h : ∀ t ∈ items, Closed t) :
    ∃ bodies : List Str, items = bodies.map (· ++ [']']) ∧ ∀ body ∈ bodies, ']' ∉ body := by
  induction items with
  | nil => exact ⟨[], rfl, by simp⟩
  | cons t items ih =>
    rw [List.forall_mem_cons] at h
    obtain ⟨body, rfl, hbody⟩ := h.1
    obtain ⟨bodies, rfl, hbodies⟩ := ih h.2
    exact ⟨body :: bodies, rfl, List.forall_mem_cons.mpr ⟨hbody, hbodies⟩⟩

/-- The items of a line can be read off it, if each ends where its bracket closes. -/
theorem items_injective {xs ys : List Str} (hxs : ∀ t ∈ xs, Closed t) (hys : ∀ t ∈ ys, Closed t)
    (h : xs.flatMap (' ' :: ·) = ys.flatMap (' ' :: ·)) : xs = ys := by
  have hclose : ∀ bodies : List Str, (bodies.map (· ++ [']'])).flatMap (' ' :: ·) =
      Path.close ']' (bodies.map (' ' :: ·)) := by
    intro bodies
    simp only [Path.close, List.flatMap_map, List.cons_append]
  have hopen : ∀ bodies : List Str, (∀ body ∈ bodies, ']' ∉ body) →
      ∀ c ∈ bodies.map (' ' :: ·), ']' ∉ c := by
    intro bodies hbodies c hc
    obtain ⟨body, hbody, rfl⟩ := List.mem_map.mp hc
    simpa using hbodies body hbody
  obtain ⟨xbodies, rfl, hx⟩ := exists_bodies hxs
  obtain ⟨ybodies, rfl, hy⟩ := exists_bodies hys
  rw [hclose, hclose] at h
  have hmap := Path.close_injective (hopen _ hx) (hopen _ hy) h
  rw [List.map_injective_iff.mpr (fun _ _ heq => (List.cons.inj heq).2) hmap]

theorem bracket_not_mem_repr (n : Int) : ']' ∉ n.repr.toList := by
  have hnat : ∀ m : Nat, ']' ∉ m.repr.toList := by
    intro m
    rw [Nat.toList_repr]
    exact not_mem_decimal (by decide)
  cases n with
  | ofNat m => exact hnat m
  | negSucc m =>
    have hrepr : (Int.negSucc m).repr = "-" ++ (m + 1).repr := rfl
    rw [hrepr, String.toList_append, List.mem_append]
    exact not_or.mpr ⟨by decide, hnat (m + 1)⟩

theorem inode_closed (x : Inode) : Closed x.dump := by
  by_cases hx : x.ftype = .free
  · exact ⟨['['], by rw [inode_dump_free hx]; rfl, by decide⟩
  · refine ⟨'[' :: (x.ftype.text ++ ' ' :: 'a' :: ':' :: (addrText x.addr ++
      ' ' :: 'r' :: ':' :: (toString x.refCnt).toList)), ?_, ?_⟩
    · rw [inode_dump_live hx]
      simp only [List.cons_append, List.append_assoc]
    · have htext : ']' ∉ x.ftype.text := by cases x.ftype <;> decide
      have haddr : ']' ∉ addrText x.addr := by
        cases x.addr with
        | none => decide
        | some n => exact not_mem_decimal (by decide)
      simp [htext, haddr, bracket_not_mem_repr]

/-- A block whose item can be read: entries with plain names, data without a bracket. -/
structure Block.Readable (block : Block) : Prop where
  entries : block.ftype = .d → ∀ e ∈ block.dirList, PlainEntry e
  data : block.ftype = .f → ']' ∉ block.data

/-- The item of a readable block ends where its bracket closes. -/
theorem block_closed {block : Block} (h : block.Readable) : Closed block.dump := by
  cases htype : block.ftype with
  | free => exact ⟨['['], by simp [Block.dump, htype], by decide⟩
  | f =>
    refine ⟨'[' :: block.data, block_dump_file htype, ?_⟩
    simpa using h.data htype
  | d =>
    refine ⟨'[' :: entriesText block.dirList, block_dump_dir htype, ?_⟩
    cases hlist : block.dirList with
    | nil => decide
    | cons e es =>
      have hplain := h.entries htype
      rw [hlist] at hplain
      have hshort : ∀ e' ∈ e :: es, ']' ∉ short e' := fun e' he' =>
        not_mem_short (hplain e' he').2.2 (by decide) (by decide)
      rw [List.forall_mem_cons] at hshort
      rw [entriesText_cons]
      simp only [List.mem_cons, List.mem_append, Path.render, List.mem_flatMap, List.mem_map,
        not_or]
      refine ⟨by decide, hshort.1, ?_⟩
      rintro ⟨c, ⟨e', he', rfl⟩, hc⟩
      rcases hc with hblank | hc
      · exact absurd hblank (by decide)
      · exact hshort.2 e' he' hc

/-! ## What two states that print the same share -/

/-- The stores print the same, as far as the text can be read. -/
structure Store.Alike (v w : Store) : Prop where
  inodes_length : v.inodes.length = w.inodes.length
  inode : ∀ (i : Nat) x y, v.inodes[i]? = some x → w.inodes[i]? = some y →
    x.ftype = y.ftype ∧ (x.ftype ≠ .free → x.addr = y.addr)
  data_length : v.data.length = w.data.length
  entries : ∀ (b : Nat) x y, v.data[b]? = some x → w.data[b]? = some y → x.ftype = .d →
    y.ftype = .d → x.dirList = y.dirList
  data : ∀ (b : Nat) x y, v.data[b]? = some x → w.data[b]? = some y → x.ftype = .f →
    y.ftype = .f → x.data = y.data

/-- Every block's item can be read. -/
def Store.Readable (v : Store) : Prop := ∀ block ∈ v.data, block.Readable

theorem eq_of_map_eq {α β : Type*} {f : α → β} {xs ys : List α} {i : Nat} {x y : α}
    (h : xs.map f = ys.map f) (hx : xs[i]? = some x) (hy : ys[i]? = some y) : f x = f y := by
  have hget := congrArg (·[i]?) h
  simpa [hx, hy] using hget

/-- Readable stores that print the same are alike. -/
theorem alike_of_dump {v w : Store} (hv : v.Readable) (hw : w.Readable) (h : v.dump = w.dump) :
    v.Alike w := by
  have hlines := h
  simp only [Store.dump, List.cons.injEq, and_true] at hlines
  obtain ⟨_, hinodes, _, hdata⟩ := hlines
  have hinodes := List.append_cancel_left (List.append_cancel_right hinodes)
  have hdata := List.append_cancel_left (List.append_cancel_right hdata)
  -- The text of the inodes falls apart into its items in one way only.
  have hiitems : v.inodes.map Inode.dump = w.inodes.map Inode.dump := by
    apply items_injective
    · simpa using fun x _ => inode_closed x
    · simpa using fun x _ => inode_closed x
    · simpa only [List.flatMap_map] using hinodes
  have hbitems : v.data.map Block.dump = w.data.map Block.dump := by
    apply items_injective
    · simpa using fun b hb => block_closed (hv b hb)
    · simpa using fun b hb => block_closed (hw b hb)
    · simpa only [List.flatMap_map] using hdata
  -- Blocks at the same place print the same.
  have hblock : ∀ (b : Nat) x y, v.data[b]? = some x → w.data[b]? = some y →
      x.dump = y.dump ∧ x.Readable ∧ y.Readable := by
    intro b x y hx hy
    exact ⟨eq_of_map_eq hbitems hx hy, hv x (List.mem_of_getElem? hx),
      hw y (List.mem_of_getElem? hy)⟩
  constructor
  case inodes_length => simpa using congrArg List.length hiitems
  case inode => exact fun i x y hx hy => inode_of_dump (eq_of_map_eq hiitems hx hy)
  case data_length => simpa using congrArg List.length hbitems
  case entries =>
    intro b x y hx hy hxd hyd
    obtain ⟨hdump, hrx, hry⟩ := hblock b x y hx hy
    rw [block_dump_dir hxd, block_dump_dir hyd] at hdump
    exact entriesText_injective (hrx.entries hxd) (hry.entries hyd)
      (List.append_cancel_right (List.cons.inj hdump).2)
  case data =>
    intro b x y hx hy hxf hyf
    obtain ⟨hdump, _, _⟩ := hblock b x y hx hy
    rw [block_dump_file hxf, block_dump_file hyf] at hdump
    exact List.append_cancel_right (List.cons.inj hdump).2

end OsLab.Vsfs
