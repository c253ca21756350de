import OsLab.Lib.Service
import OsLab.Raid.Array

/-!
# The array as one device of blocks

Above its I/O pattern an array is a device: a read returns what was last written. The contents of
the disks are given to the accesses here. A read answers with what lies at the places it accesses; a
write puts its data at the places of its write accesses, and at RAID-4 and RAID-5 the parity that
`commit` computes from what has been read.

* **`device`** -- the abstract service: blocks that keep what was last written to them.
* **`serve`** -- the array as a service over the contents of its disks.
* **`Represents`**, **`serve_refines`** -- the array refines the device while it holds the blocks of
  the device with the redundancy of its level.
* **`Serves`**, **`serves_as_device`** -- over lists of requests that `raid.py` carries out: the
  answers, the redundancy, the accesses that are issued, and what is left alone.
-/

namespace OsLab

namespace Raid

variable {w : Nat}

/-- A request with the data it carries. -/
inductive Io (α : Type) where
  | read (addr size : Nat)
  | write (addr size : Nat) (new : Nat → α)

namespace Io

variable {α : Type}

/-- What the array sees of a request. -/
def request : Io α → Request
  | .read addr size => ⟨addr, size, false⟩
  | .write addr size _ => ⟨addr, size, true⟩

/-- The request is for one block at least. -/
def NonEmpty (io : Io α) : Prop := 1 ≤ io.request.size

end Io

/-- What an array is for: blocks that keep what was last written to them. -/
def device {α : Type} : Service (Nat → α) (Io α) (List α)
  | f, .read addr size => some (f, (range addr (addr + size)).map f)
  | f, .write addr size new =>
    some (fun b => if addr ≤ b ∧ b < addr + size then new b else f b, [])

/-- A device answers every request. -/
theorem device_total {α : Type} (f : Nat → α) (io : Io α) : ∃ r, device f io = some r := by
  cases io with
  | read addr size => exact ⟨_, rfl⟩
  | write addr size new => exact ⟨_, rfl⟩

variable (r : Raid)

/-! ## The contents -/

/-- The write accesses for a block, each with the block's data. -/
def storeBlock (new : Nat → BitVec w) (content : Nat × Nat → BitVec w) (b : Nat) :
    Nat × Nat → BitVec w :=
  (r.blockAccesses true b).foldl (fun content a => Function.update content a.place (new b)) content

/-- The contents after a write. -/
def store (new : Nat → BitVec w) (content : Nat × Nat → BitVec w) (addr size : Nat) :
    Option (Nat × Nat → BitVec w) :=
  match r.raidLevel with
  | .zero => some ((range addr (addr + size)).foldl (r.storeBlock new) content)
  | .one => some ((range addr (addr + size)).foldl (r.storeBlock new) content)
  | .four => (r.parts addr size).foldlM (r.commit new) content
  | .five => (r.parts addr size).foldlM (r.commit new) content

/-- The array at work. -/
def serve : Service (Nat × Nat → BitVec w) (Io (BitVec w)) (List (BitVec w))
  | content, .read addr size =>
    some (content, (r.accesses ⟨addr, size, false⟩).map fun a => content a.place)
  | content, .write addr size new => (r.store new content addr size).map fun content' => (content', [])

/-- What the level keeps besides the data: nothing, second copies, or parity. -/
def Redundant (content : Nat × Nat → BitVec w) : Prop :=
  match r.raidLevel with
  | .zero => True
  | .one => ∀ b, content (r.mirror b) = content (r.place b)
  | .four => r.ParityOk content
  | .five => r.ParityOk content

/-- An array of zeros is redundant at every level: the copies agree and the parity is zero. -/
theorem redundant_zero : r.Redundant fun _ => 0#w := by
  unfold Redundant
  cases hlevel : r.raidLevel with
  | zero => trivial
  | one => exact fun _ => rfl
  | four => exact r.parityOk_zero
  | five => exact r.parityOk_zero

/-! ## Copies -/

/-- Storing a block puts its data at its copies and nowhere else. -/
theorem storeBlock_apply (new : Nat → BitVec w) (content : Nat × Nat → BitVec w) (b : Nat)
    (p : Nat × Nat) :
    r.storeBlock new content b p = if p ∈ r.copies b then new b else content p := by
  unfold storeBlock copies
  induction r.blockAccesses true b generalizing content with
  | nil => rfl
  | cons a as ih =>
    rw [List.foldl_cons, ih, List.map_cons]
    by_cases hmem : p ∈ as.map Access.place
    · rw [if_pos hmem, if_pos (List.mem_cons_of_mem _ hmem)]
    · rw [if_neg hmem]
      by_cases hp : p = a.place
      · rw [hp, Function.update_self, if_pos List.mem_cons_self]
      · rw [Function.update_of_ne hp, if_neg fun h => (List.mem_cons.mp h).elim hp hmem]

/-- The copies of the written blocks get their data, everything else stays. -/
theorem foldl_storeBlock_of_mem (new : Nat → BitVec w) (blocks : List Nat)
    (content : Nat × Nat → BitVec w) {b : Nat} {p : Nat × Nat} (hp : p ∈ r.copies b) :
    blocks.foldl (r.storeBlock new) content p = if b ∈ blocks then new b else content p := by
  induction blocks generalizing content with
  | nil => rfl
  | cons b' blocks ih =>
    rw [List.foldl_cons, ih, storeBlock_apply]
    by_cases hrest : b ∈ blocks
    · rw [if_pos hrest, if_pos (List.mem_cons_of_mem _ hrest)]
    · rw [if_neg hrest]
      by_cases hb : p ∈ r.copies b'
      · obtain rfl : b = b' := r.copies_disjoint hp hb
        rw [if_pos hb, if_pos List.mem_cons_self]
      · have hne : b ∉ b' :: blocks := by
          rintro (_ | ⟨_, hmem⟩)
          · exact hb hp
          · exact hrest hmem
        rw [if_neg hb, if_neg hne]

/-- A place that is no copy of the written blocks keeps its contents. -/
theorem foldl_storeBlock_of_notMem (new : Nat → BitVec w) (blocks : List Nat)
    (content : Nat × Nat → BitVec w) {p : Nat × Nat} (hp : ∀ b ∈ blocks, p ∉ r.copies b) :
    blocks.foldl (r.storeBlock new) content p = content p := by
  induction blocks generalizing content with
  | nil => rfl
  | cons b blocks ih =>
    rw [List.forall_mem_cons] at hp
    rw [List.foldl_cons, ih _ hp.2, storeBlock_apply, if_neg hp.1]

/-! ## One write -/

/-- Accesses that store something change the places they go to and no others. -/
theorem foldlM_update_frame {store : Access → Option (BitVec w)} {as : List Access}
    {content content' : Nat × Nat → BitVec w} {p : Nat × Nat}
    (h : as.foldlM (fun content a => (store a).map (Function.update content a.place)) content =
      some content') (hp : ∀ a ∈ as, a.place ≠ p) : content' p = content p := by
  induction as generalizing content with
  | nil =>
    cases h
    rfl
  | cons a as ih =>
    rw [List.forall_mem_cons] at hp
    rw [List.foldlM_cons] at h
    cases hstore : store a with
    | none => simp [hstore] at h
    | some value =>
      rw [hstore] at h
      rw [ih h hp.2, Function.update_of_ne hp.1.symm]

/-- Partial writes only touch the places of their write accesses. -/
theorem foldlM_commit_frame {new : Nat → BitVec w} {ps : List PartialWrite}
    {content content' : Nat × Nat → BitVec w} {p : Nat × Nat}
    (h : ps.foldlM (r.commit new) content = some content')
    (hp : ∀ q ∈ ps, ∀ a ∈ r.writesOf q, a.place ≠ p) : content' p = content p := by
  induction ps generalizing content with
  | nil =>
    cases h
    rfl
  | cons q ps ih =>
    rw [List.forall_mem_cons] at hp
    rw [List.foldlM_cons, Option.bind_eq_bind, Option.bind_eq_some_iff] at h
    obtain ⟨content₁, hcommit, hrest⟩ := h
    rw [ih hrest hp.2]
    exact foldlM_update_frame hcommit hp.1

/-- The places a request writes to. -/
def Touches (q : Request) (p : Nat × Nat) : Prop := ∃ a ∈ r.accesses q, a.isWrite = true ∧ a.place = p

/-- Without parity a write touches all copies of its blocks. -/
theorem copies_touched (h : ¬ r.HasParity) {addr size b : Nat} (hb : b ∈ range addr (addr + size))
    {p : Nat × Nat} (hp : p ∈ r.copies b) : r.Touches ⟨addr, size, true⟩ p := by
  obtain ⟨a, ha, rfl⟩ := List.mem_map.mp hp
  have haccesses : r.accesses ⟨addr, size, true⟩ =
      (range addr (addr + size)).flatMap (r.blockAccesses true) := by
    unfold accesses
    cases hlevel : r.raidLevel with
    | zero => rfl
    | one => rfl
    | four => exact absurd (.inl hlevel) h
    | five => exact absurd (.inr hlevel) h
  refine ⟨a, ?_, ?_, rfl⟩
  · rw [haccesses]
    exact List.mem_flatMap.mpr ⟨b, hb, ha⟩
  · exact r.isWrite_of_mem_blockAccesses ha

/-- With parity a write touches the places of its partial writes. -/
theorem writesOf_touched (h45 : r.HasParity) {addr size : Nat} {q : PartialWrite}
    (hq : q ∈ r.parts addr size) {a : Access} (ha : a ∈ r.writesOf q) :
    r.Touches ⟨addr, size, true⟩ a.place := by
  have haccesses : r.accesses ⟨addr, size, true⟩ = r.writeAccesses addr size := by
    unfold accesses
    rcases h45 with h | h <;> rw [h]
  refine ⟨a, ?_, ?_, rfl⟩
  · rw [haccesses]
    exact List.mem_flatMap.mpr ⟨q, hq, List.mem_append_right _ ha⟩
  · obtain ⟨b, _, rfl | rfl⟩ := r.mem_writesOf.mp ha <;> rfl

/-- What a write of at least one block leaves. -/
structure Stored (new : Nat → BitVec w) (content : Nat × Nat → BitVec w) (addr size : Nat)
    (content' : Nat × Nat → BitVec w) : Prop where
  redundant : r.Redundant content'
  data : ∀ b, content' (r.place b) =
    if addr ≤ b ∧ b < addr + size then new b else content (r.place b)
  frame : ∀ p, ¬ r.Touches ⟨addr, size, true⟩ p → content' p = content p

/-- Without parity, what is stored are the copies of the new data. -/
theorem store_copies (h : ¬ r.HasParity) {content : Nat × Nat → BitVec w}
    (hred : r.Redundant content) (new : Nat → BitVec w) (addr size : Nat) :
    r.Stored new content addr size
      ((range addr (addr + size)).foldl (r.storeBlock new) content) where
  redundant := by
    unfold Redundant at hred ⊢
    cases hlevel : r.raidLevel with
    | zero => trivial
    | one =>
      intro b
      have hmirror : r.mirror b ∈ r.copies b := by simp [copies_eq, hlevel]
      rw [hlevel] at hred
      rw [r.foldl_storeBlock_of_mem new _ content hmirror,
        r.foldl_storeBlock_of_mem new _ content (r.place_mem_copies b), hred b]
    | four => exact absurd (.inl hlevel) h
    | five => exact absurd (.inr hlevel) h
  data b := by
    simp only [r.foldl_storeBlock_of_mem new _ content (r.place_mem_copies b), mem_range]
  frame p hp := r.foldl_storeBlock_of_notMem new _ content fun _ hb hmem =>
    hp (r.copies_touched h hb hmem)

/-- With parity, what is stored are the new data and the parity of their rows. -/
theorem store_parity (h45 : r.HasParity) {content : Nat × Nat → BitVec w}
    (hok : r.ParityOk content) (new : Nat → BitVec w) {addr size : Nat} (hsize : 1 ≤ size) :
    ∃ content', (r.parts addr size).foldlM (r.commit new) content = some content' ∧
      r.Stored new content addr size content' := by
  obtain ⟨hin, hcover, _⟩ := parts_spec h45 addr size hsize
  obtain ⟨content', hrun, hok', hblocks⟩ := foldlM_commit_ok h45 new _ hin hok
  refine ⟨content', hrun, ?_, fun b => ?_, fun p hp => ?_⟩
  · unfold Redundant
    rcases h45 with h | h <;> rw [h] <;> exact hok'
  · rw [hblocks, hcover]
    simp only [mem_range]
  · exact r.foldlM_commit_frame hrun fun q hq a ha heq =>
      hp (heq ▸ r.writesOf_touched h45 hq ha)

/-- A write of at least one block always succeeds, at every level. -/
theorem store_ok {content : Nat × Nat → BitVec w} (hred : r.Redundant content)
    (new : Nat → BitVec w) {addr size : Nat} (hsize : 1 ≤ size) :
    ∃ content', r.store new content addr size = some content' ∧
      r.Stored new content addr size content' := by
  have hcopies : ¬ r.HasParity → r.Stored new content addr size _ :=
    fun h => r.store_copies h hred new addr size
  unfold store
  unfold Redundant at hred
  cases hlevel : r.raidLevel with
  | zero => exact ⟨_, rfl, hcopies (by simp [HasParity, hlevel])⟩
  | one => exact ⟨_, rfl, hcopies (by simp [HasParity, hlevel])⟩
  | four =>
    rw [hlevel] at hred
    exact r.store_parity (.inl hlevel) hred new hsize
  | five =>
    rw [hlevel] at hred
    exact r.store_parity (.inr hlevel) hred new hsize

/-! ## Reads -/

/-- Wherever a block is read, the redundancy makes it the contents of its place. -/
theorem content_readPlace {content : Nat × Nat → BitVec w} (hred : r.Redundant content) (b : Nat) :
    content (r.readPlace b) = content (r.place b) := by
  unfold readPlace
  split
  · next hlevel =>
    unfold Redundant at hred
    rw [hlevel] at hred
    split
    · rfl
    · exact hred b
  · rfl

/-- The accesses of a read are one for each block, at the place that the level reads. -/
theorem accesses_read (addr size : Nat) : r.accesses ⟨addr, size, false⟩ =
    (range addr (addr + size)).map fun b => readAt (r.readPlace b) := by
  have hblock : r.blockAccesses false = fun b => [readAt (r.readPlace b)] := by
    funext b
    unfold blockAccesses
    cases r.raidLevel <;> rfl
  rw [List.map_eq_flatMap, ← hblock]
  unfold accesses
  cases r.raidLevel <;> rfl

/-! ## Runs -/

/-- The array holds the blocks `f`, with the redundancy of its level. -/
def Represents (content : Nat × Nat → BitVec w) (f : Nat → BitVec w) : Prop :=
  r.Redundant content ∧ ∀ b, content (r.place b) = f b

/-- Request by request the array answers as the device does, and goes on representing it. -/
theorem serve_refines : r.serve.Refines (device (α := BitVec w)) Io.NonEmpty r.Represents := by
  intro content f io f' o hrep hne hdevice
  obtain ⟨hred, hdata⟩ := hrep
  cases io with
  | read addr size =>
    cases hdevice
    refine ⟨content, ?_, hred, hdata⟩
    show some (content, (r.accesses ⟨addr, size, false⟩).map fun a => content a.place) = _
    rw [accesses_read, List.map_map]
    congr 2
    refine List.map_congr_left fun b _ => ?_
    exact (r.content_readPlace hred b).trans (hdata b)
  | write addr size new =>
    cases hdevice
    have hsize : 1 ≤ size := hne
    obtain ⟨content', hstore, hstored⟩ : ∃ content', r.store new content addr size = some content' ∧
        r.Stored new content addr size content' := r.store_ok hred new hsize
    refine ⟨content', ?_, hstored.redundant, fun b => ?_⟩
    · show (r.store new content addr size).map _ = _
      rw [hstore]
      rfl
    · rw [hstored.data, hdata]

/-- A place that no request touches keeps its contents. -/
theorem run_frame {ios : List (Io (BitVec w))} {content content' : Nat × Nat → BitVec w}
    {os : List (List (BitVec w))} {p : Nat × Nat} (hred : r.Redundant content)
    (hios : ∀ io ∈ ios, io.NonEmpty) (hrun : r.serve.run content ios = some (content', os))
    (hp : ∀ io ∈ ios, ¬ r.Touches io.request p) : content' p = content p := by
  induction ios generalizing content os with
  | nil =>
    cases hrun
    rfl
  | cons io ios ih =>
    rw [List.forall_mem_cons] at hios hp
    obtain ⟨content₁, o, os', hserve, hrest, _⟩ := Service.run_cons_eq_some.mp hrun
    cases io with
    | read addr size =>
      obtain ⟨rfl, _⟩ : content = content₁ ∧ _ = o := Prod.ext_iff.mp (Option.some.inj hserve)
      exact ih hred hios.2 hrest hp.2
    | write addr size new =>
      have hsize : 1 ≤ size := hios.1
      obtain ⟨content₂, hstore, hstored⟩ : ∃ content', r.store new content addr size =
          some content' ∧ r.Stored new content addr size content' := r.store_ok hred new hsize
      have hwrite : r.serve content (.write addr size new) = some (content₂, []) := by
        show (r.store new content addr size).map _ = _
        rw [hstore]
        rfl
      obtain ⟨rfl, _⟩ := Prod.ext_iff.mp (Option.some.inj (hwrite.symm.trans hserve))
      rw [ih hstored.redundant hios.2 hrest hp.2]
      exact hstored.frame p hp.1

/-- A request that raid.py carries out: for one block at least, and on the disks. -/
def Serves (io : Io (BitVec w)) : Prop := io.NonEmpty ∧ r.OnDisks io.request

/-- **The array is a device.** Whatever the requests on its disks, the array answers as one device
of blocks would: reads return what was last written, at every level, and the redundancy is kept.
`enqueue` carries all of them out and issues their accesses in order, and contents only change
where one of these writes. -/
theorem serves_as_device {content : Nat × Nat → BitVec w} (hred : r.Redundant content)
    {ios : List (Io (BitVec w))} (hios : ∀ io ∈ ios, r.Serves io) {f : Nat → BitVec w}
    {os : List (List (BitVec w))}
    (hrun : Service.run device (fun b => content (r.place b)) ios = some (f, os)) :
    ∃ content', r.serve.run content ios = some (content', os) ∧ r.Redundant content' ∧
      (∀ b, content' (r.place b) = f b) ∧
      (∀ st, r.HasDisks st → ∃ st', r.enqueueAll (ios.map Io.request) st = .ok ((), st') ∧
        r.HasDisks st' ∧ st'.issued = st.issued ++ (ios.map Io.request).flatMap r.accesses) ∧
      ∀ p, content' p ≠ content p → ∃ a ∈ (ios.map Io.request).flatMap r.accesses,
        a.isWrite = true ∧ a.place = p := by
  have hne : ∀ io ∈ ios, io.NonEmpty := fun io hio => (hios io hio).1
  obtain ⟨content', hserve, hred', hdata⟩ := r.serve_refines.run hne ⟨hred, fun _ => rfl⟩ hrun
  refine ⟨content', hserve, hred', hdata, fun st hst => ?_, fun p hchanged => ?_⟩
  · refine enqueueAll_of_onDisks hst fun q hq => ?_
    obtain ⟨io, hio, rfl⟩ := List.mem_map.mp hq
    exact hios io hio
  · by_contra hnone
    refine hchanged (r.run_frame hred hne hserve fun io hio => ?_)
    rintro ⟨a, ha, hwrite, hplace⟩
    exact hnone ⟨a, List.mem_flatMap.mpr ⟨_, List.mem_map_of_mem hio, ha⟩, hwrite, hplace⟩

/-- Four blocks written over a stripe's end, then read with their neighbours. -/
def writeThenRead : List (Io (BitVec 8)) := [.write 1 4 fun b => BitVec.ofNat 8 b, .read 0 6]

/-- The two requests on an array of zeros: what is read, and that fresh disks make the accesses. -/
theorem serves_as_device_raid5Three : ∃ content', raid5Three.serve.run (fun _ => 0#8)
    writeThenRead = some (content', [[], [0, 1, 2, 3, 4, 0]]) ∧ raid5Three.Redundant content' ∧
    ∃ st', raid5Three.enqueueAll [⟨1, 4, true⟩, ⟨0, 6, false⟩] raid5Three.initState =
      .ok ((), st') := by
  have hios : ∀ io ∈ writeThenRead, raid5Three.Serves io := by
    simp only [writeThenRead, List.forall_mem_cons, List.not_mem_nil, false_implies, implies_true,
      and_true, Serves, Io.NonEmpty, Io.request]
    decide
  obtain ⟨content', hrun, hred, -, henqueue, -⟩ :=
    serves_as_device raid5Three (redundant_zero raid5Three) hios rfl
  obtain ⟨st', hst', -⟩ := henqueue raid5Three.initState raid5Three.hasDisks_initState
  exact ⟨content', hrun, hred, st', hst'⟩

end Raid

end OsLab
