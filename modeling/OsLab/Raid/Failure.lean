import OsLab.Raid.Storage

/-!
# Lost disks

Which disks an array can lose. Two arrays that have been written and agree on the disks that are
left hold the same data exactly when no more is lost than the level tolerates: nothing at RAID-0,
one disk of each pair at RAID-1, and one disk at RAID-4 and RAID-5.

* **`Written`**, **`AgreeOff`**, **`Tolerates`** -- arrays that some requests have written,
  agreement on the disks that are left, and the losses that a level is built for.
* **`AgreeOff.data`** -- tolerated losses do no harm: the data follow from the other mirror, or from
  the parity of the row.
* **`exists_hidden`** -- a loss that is not tolerated hides something: there are blocks that can be
  written without a trace on the disks that are left.
* **`survives_iff`** -- both directions.
-/

namespace OsLab

open Striping Parity

namespace Raid

variable (r : Raid) {w : Nat}

/-- The contents are those of a fresh array after some requests. -/
def Written (content : Nat × Nat → BitVec w) : Prop :=
  ∃ ios os, (∀ io ∈ ios, io.NonEmpty) ∧ r.serve.run (fun _ => 0#w) ios = some (content, os)

/-- The contents agree on all disks that are not lost. -/
def AgreeOff (lost : Set Nat) (content content' : Nat × Nat → BitVec w) : Prop :=
  ∀ disk < r.numDisks, disk ∉ lost → ∀ off, content (disk, off) = content' (disk, off)

/-- The losses that a level is built for. -/
def Tolerates (lost : Set Nat) : Prop :=
  match r.raidLevel with
  | .zero => ∀ disk < r.numDisks, disk ∉ lost
  | .one => ∀ disk < r.numDisks, disk % 2 = 0 → ¬ (disk ∈ lost ∧ disk + 1 ∈ lost)
  | .four => ∀ disk < r.numDisks, ∀ disk' < r.numDisks, disk ∈ lost → disk' ∈ lost → disk = disk'
  | .five => ∀ disk < r.numDisks, ∀ disk' < r.numDisks, disk ∈ lost → disk' ∈ lost → disk = disk'

/-! ## Places -/

/-- A row lists its blocks once each. -/
theorem nodup_rowBlocks (off : Nat) : (r.rowBlocks off).Nodup := (nodup_range _ _).filter _

/-- Whatever has been written, the array has kept the redundancy of its level. -/
theorem Written.redundant {content : Nat × Nat → BitVec w} (h : r.Written content) :
    r.Redundant content := by
  obtain ⟨ios, os, hios, hrun⟩ := h
  obtain ⟨⟨f, os'⟩, hdevice⟩ := Service.exists_run device_total (fun _ => 0#w) ios
  obtain ⟨content', hrun', hrep⟩ :=
    r.serve_refines.run hios ⟨r.redundant_zero, fun _ => rfl⟩ hdevice
  cases hrun.symm.trans hrun'
  exact hrep.1

/-! ## What can be lost -/

section Agree

variable {r} {lost : Set Nat} {content content' : Nat × Nat → BitVec w}

/-- A copy that is not lost is the same in both arrays. -/
theorem AgreeOff.copy (h : r.AgreeOff lost content content') {b : Nat} {p : Nat × Nat}
    (hp : p ∈ r.copies b) (hlost : p.1 ∉ lost) : content p = content' p :=
  h p.1 (r.copies_disk_lt hp) hlost p.2

/-- A pair of mirrors is not lost as long as one of them is left: the data can be read there. -/
theorem AgreeOff.mirrored (h : r.AgreeOff lost content content') (hlevel : r.raidLevel = .one)
    (htol : r.Tolerates lost) (hred : r.Redundant content) (hred' : r.Redundant content') (b : Nat) :
    content (r.place b) = content' (r.place b) := by
  unfold Redundant at hred hred'
  unfold Tolerates at htol
  rw [hlevel] at hred hred' htol
  by_cases hlost : (r.place b).1 ∈ lost
  · have hmirror : r.mirror b ∈ r.copies b := by simp [copies_eq, hlevel]
    have hleft : (r.mirror b).1 ∉ lost := fun hboth =>
      htol _ (r.copies_disk_lt (r.place_mem_copies b)) (r.place_even hlevel b) ⟨hlost, hboth⟩
    rw [← hred b, ← hred' b]
    exact h.copy hmirror hleft
  · exact h.copy (r.place_mem_copies b) hlost

/-- With one disk lost, each block on it follows from its row, whose parity and other blocks are
left. -/
theorem AgreeOff.parity (h : r.AgreeOff lost content content') (h45 : r.HasParity)
    (hone : ∀ disk < r.numDisks, ∀ disk' < r.numDisks, disk ∈ lost → disk' ∈ lost → disk = disk')
    (hok : r.ParityOk content) (hok' : r.ParityOk content') (b : Nat) :
    content (r.place b) = content' (r.place b) := by
  by_cases hlost : (r.place b).1 ∈ lost
  · have hleft : ∀ disk < r.numDisks, disk ≠ (r.place b).1 → disk ∉ lost := fun disk hdisk hne hmem =>
      hne (hone disk hdisk _ (place_disk_lt h45 b) hmem hlost)
    have hstripe : (r.place b).2 / r.chunkSize = r.grid.row b := r.place_snd_div b
    have hparity : content (r.parityDisk ((r.place b).2 / r.chunkSize), (r.place b).2) =
        content' (r.parityDisk ((r.place b).2 / r.chunkSize), (r.place b).2) := by
      rw [hstripe]
      exact h _ (parityDisk_lt h45 _) (hleft _ (parityDisk_lt h45 _)
        (place_disk_ne_parityDisk h45 b).symm) _
    rw [hok, hok'] at hparity
    refine eq_of_parity_eq (f := fun b => content (r.place b)) (g := fun b => content' (r.place b))
      (r.nodup_rowBlocks _) ((mem_rowBlocks h45).mpr rfl) hparity ?_
    intro b' hb' hne
    rw [mem_rowBlocks h45] at hb'
    refine h.copy (r.place_mem_copies b') (hleft _ (place_disk_lt h45 b') fun hdisk => hne ?_)
    exact r.place_inj (Prod.ext hdisk hb')
  · exact h.copy (r.place_mem_copies b) hlost

/-- If the loss is tolerated, arrays that agree on what is left hold the same data. One case for
each level. -/
theorem AgreeOff.data (h : r.AgreeOff lost content content') (htol : r.Tolerates lost)
    (hred : r.Redundant content) (hred' : r.Redundant content') (b : Nat) :
    content (r.place b) = content' (r.place b) := by
  have htol' := htol
  have hparity := hred
  have hparity' := hred'
  unfold Tolerates at htol'
  unfold Redundant at hparity hparity'
  cases hlevel : r.raidLevel with
  | zero =>
    rw [hlevel] at htol'
    exact h.copy (r.place_mem_copies b) (htol' _ (r.copies_disk_lt (r.place_mem_copies b)))
  | one => exact h.mirrored hlevel htol hred hred' b
  | four =>
    rw [hlevel] at htol' hparity hparity'
    exact h.parity (.inl hlevel) htol' hparity hparity' b
  | five =>
    rw [hlevel] at htol' hparity hparity'
    exact h.parity (.inr hlevel) htol' hparity hparity' b

end Agree

/-! ## What cannot be lost -/

/-- Write ones to the blocks of a list, one at a time. -/
def ones (bs : List Nat) : List (Io (BitVec w)) := bs.map fun b => .write b 1 fun _ => 1#w

/-- Writing ones block by block, as a device does it. -/
theorem device_ones (bs : List Nat) (f : Nat → BitVec w) :
    Service.run device f (ones bs) =
      some (fun b => if b ∈ bs then 1#w else f b, bs.map fun _ => []) := by
  induction bs generalizing f with
  | nil => simp [ones]
  | cons b bs ih =>
    have hstep : device f (.write b 1 fun _ => 1#w) =
        some (fun b' => if b ≤ b' ∧ b' < b + 1 then 1#w else f b', []) := rfl
    show Service.run device f (.write b 1 (fun _ => 1#w) :: ones bs) = _
    rw [Service.run_cons_of_some hstep, ih]
    simp only [Option.map_some, List.map_cons, Option.some.injEq, Prod.mk.injEq, and_true]
    funext b'
    by_cases hmem : b' ∈ bs
    · rw [if_pos hmem, if_pos (List.mem_cons_of_mem _ hmem)]
    · rw [if_neg hmem]
      refine if_congr ?_ rfl rfl
      rw [List.mem_cons, or_iff_left hmem]
      omega

/-- The array with ones in the blocks of a list and zeros elsewhere is one that requests write. -/
theorem exists_written (bs : List Nat) : ∃ content : Nat × Nat → BitVec w, r.Written content ∧
    ∀ b, content (r.place b) = if b ∈ bs then 1#w else 0#w := by
  have hios : ∀ io ∈ (ones bs : List (Io (BitVec w))), io.NonEmpty := by
    intro io hio
    obtain ⟨b, _, rfl⟩ := List.mem_map.mp hio
    exact Nat.le_refl 1
  obtain ⟨content, hrun, _, hdata⟩ := r.serve_refines.run hios
    ⟨r.redundant_zero, fun _ => rfl⟩ (device_ones bs fun _ => 0#w)
  exact ⟨content, ⟨_, _, hios, hrun⟩, hdata⟩

/-- The ones cannot be seen on the disks that are left. -/
def Hidden (w : Nat) (lost : Set Nat) (bs : List Nat) : Prop :=
  (∀ b ∈ bs, ∀ p ∈ r.copies b, p.1 ∈ lost) ∧
    (r.HasParity → ∀ off, r.parityDisk (off / r.chunkSize) ∉ lost →
      parity (fun b => if b ∈ bs then 1#w else 0#w) (r.rowBlocks off) = 0#w)

/-- If the ones cannot be seen on the disks that are left, that array agrees there with the empty
one. -/
theorem agreeOff_of_hidden {lost : Set Nat} {bs : List Nat} {content : Nat × Nat → BitVec w}
    (hhidden : r.Hidden w lost bs) (hred : r.Redundant content)
    (hdata : ∀ b, content (r.place b) = if b ∈ bs then 1#w else 0#w) :
    r.AgreeOff lost content fun _ => 0#w := by
  intro disk hdisk hleft off
  by_cases hparity : r.ParityAt disk off
  · have h45 : r.HasParity := by
      unfold ParityAt at hparity
      unfold HasParity
      cases hlevel : r.raidLevel <;> simp_all
    have hok : r.ParityOk content := by
      unfold Redundant at hred
      rcases h45 with h | h <;> rwa [h] at hred
    obtain rfl := (r.parityAt_iff h45 disk off).mp hparity
    rw [hok off]
    simp only [hdata]
    exact hhidden.2 h45 off hleft
  · obtain ⟨b, _, hcopy⟩ := r.exists_copy hdisk hparity
    have hsame : content (disk, off) = content (r.place b) := by
      rw [copies_eq] at hcopy
      unfold Redundant at hred
      split at hcopy
      · next hone =>
        rw [hone] at hred
        rcases List.mem_pair.mp hcopy with heq | heq
        · rw [heq]
        · rw [heq, hred b]
      · rw [List.mem_singleton.mp hcopy]
    rw [hsame, hdata, if_neg fun hb => hleft (hhidden.1 b hb _ hcopy)]

/-- Every disk has a block at offset 0, unless it holds the parity there. -/
theorem exists_block {disk : Nat} (hdisk : disk < r.numDisks) (hparity : ¬ r.ParityAt disk 0) :
    ∃ b, r.place b = (r.primary disk, 0) := by
  obtain ⟨b, hb, _⟩ := r.exists_copy hdisk hparity
  exact ⟨b, hb⟩

/-- The parity of a row is that of its ones. -/
theorem parity_ones (h45 : r.HasParity) {bs : List Nat} {off : Nat}
    (hbs : ∀ b ∈ bs, (r.place b).2 ≠ off) :
    parity (fun b => if b ∈ bs then 1#w else 0#w) (r.rowBlocks off) = 0#w := by
  apply parity_zero
  intro b hb
  rw [mem_rowBlocks h45] at hb
  exact if_neg fun hmem => hbs b hmem hb

/-- Two lost disks of a row hide two ones, or a one and the parity. -/
theorem exists_hidden_parity (h45 : r.HasParity) {lost : Set Nat} {disk disk' : Nat}
    (hdisk : disk < r.numDisks) (hdisk' : disk' < r.numDisks) (hlost : disk ∈ lost)
    (hlost' : disk' ∈ lost) (hne : disk ≠ disk') :
    ∃ bs, bs ≠ [] ∧ r.Hidden w lost bs := by
  have hnot : r.raidLevel ≠ .one := by
    rcases h45 with h | h <;> simp [h]
  have hcopies : ∀ b, r.copies b = [r.place b] := fun b => by rw [copies_eq, if_neg hnot]
  have hprimary : ∀ d, r.primary d = d := by
    intro d
    unfold primary
    split
    · contradiction
    · rfl
  have hblock : ∀ d < r.numDisks, r.parityDisk 0 ≠ d → ∃ b, r.place b = (d, 0) := by
    intro d hd hpd
    have hnot : ¬ r.ParityAt d 0 := by
      rw [parityAt_iff r h45, Nat.zero_div]
      exact hpd
    obtain ⟨b, hb⟩ := r.exists_block hd hnot
    exact ⟨b, hb.trans (by rw [hprimary])⟩
  -- one block on a lost disk, in a row whose parity is lost too
  have hsingle : ∀ d < r.numDisks, d ∈ lost → r.parityDisk 0 ≠ d → r.parityDisk 0 ∈ lost →
      ∃ bs, bs ≠ [] ∧ r.Hidden w lost bs := by
    intro d hd hdlost hpd hplost
    obtain ⟨b, hb⟩ := hblock d hd hpd
    refine ⟨[b], by simp, fun b' hb' p hp => ?_, fun _ off hleft => ?_⟩
    · obtain rfl := List.mem_singleton.mp hb'
      rw [hcopies, List.mem_singleton, hb] at hp
      rw [hp]
      exact hdlost
    · apply r.parity_ones h45
      intro b' hb'
      obtain rfl := List.mem_singleton.mp hb'
      rw [hb]
      rintro rfl
      exact hleft (by simpa using hplost)
  by_cases hp : r.parityDisk 0 = disk
  · exact hsingle disk' hdisk' hlost' (hp ▸ hne) (hp ▸ hlost)
  by_cases hp' : r.parityDisk 0 = disk'
  · exact hsingle disk hdisk hlost (hp' ▸ hne.symm) (hp' ▸ hlost')
  obtain ⟨b, hb⟩ := hblock disk hdisk hp
  obtain ⟨b', hb'⟩ := hblock disk' hdisk' hp'
  have hbb' : b' ≠ b := by
    rintro rfl
    exact hne (congrArg Prod.fst (hb.symm.trans hb'))
  refine ⟨[b, b'], by simp, fun b'' hb'' p hp => ?_, fun _ off hleft => ?_⟩
  · rw [hcopies, List.mem_singleton] at hp
    rcases List.mem_pair.mp hb'' with rfl | rfl
    · rw [hp, hb]
      exact hlost
    · rw [hp, hb']
      exact hlost'
  · by_cases hoff : off = 0
    · -- the two ones cancel
      have hmem : b ∈ r.rowBlocks off := (mem_rowBlocks h45).mpr (by rw [hb, hoff])
      have hmem' : b' ∈ (r.rowBlocks off).erase b :=
        (List.mem_erase_of_ne hbb').mpr ((mem_rowBlocks h45).mpr (by rw [hb', hoff]))
      rw [parity_erase _ hmem, parity_erase _ hmem', parity_zero, if_pos (by simp),
        if_pos (by simp), BitVec.xor_zero, BitVec.xor_self]
      intro i hi
      have hnodup := r.nodup_rowBlocks off
      rw [(hnodup.erase b).mem_erase_iff, hnodup.mem_erase_iff] at hi
      exact if_neg fun h => (List.mem_pair.mp h).elim hi.2.1 hi.1
    · apply r.parity_ones h45
      intro b'' hb''
      rcases List.mem_pair.mp hb'' with rfl | rfl
      · rw [hb]
        exact Ne.symm hoff
      · rw [hb']
        exact Ne.symm hoff

/-- A loss that is not tolerated hides some ones, at every level. -/
theorem exists_hidden {lost : Set Nat} (h : ¬ r.Tolerates lost) :
    ∃ bs, bs ≠ [] ∧ r.Hidden w lost bs := by
  unfold Tolerates at h
  cases hlevel : r.raidLevel with
  | zero =>
    rw [hlevel] at h
    -- Without redundancy one lost disk is enough, and each disk has a block.
    push Not at h
    obtain ⟨disk, hdisk, hlost⟩ := h
    obtain ⟨b, hb⟩ := r.exists_block hdisk (by simp [ParityAt, hlevel])
    refine ⟨[b], by simp, fun b' hb' p hp => ?_, fun h45 => ?_⟩
    · obtain rfl := List.mem_singleton.mp hb'
      simp only [copies_eq, hlevel, reduceCtorEq, if_false, List.mem_singleton, hb] at hp
      simpa [hp, primary, hlevel] using hlost
    · simp [HasParity, hlevel] at h45
  | one =>
    rw [hlevel] at h
    -- A pair is lost: the block on its first disk has no other copy.
    push Not at h
    obtain ⟨disk, hdisk, heven, hlost, hlost'⟩ := h
    obtain ⟨b, hb⟩ := r.exists_block hdisk (by simp [ParityAt, hlevel])
    have hfirst : r.primary disk = disk := by
      simp only [primary, hlevel]
      omega
    refine ⟨[b], by simp, fun b' hb' p hp => ?_, fun h45 => ?_⟩
    · obtain rfl := List.mem_singleton.mp hb'
      simp only [copies_eq, hlevel, if_true, List.mem_pair, mirror, hb, hfirst] at hp
      rcases hp with rfl | rfl
      · exact hlost
      · exact hlost'
    · simp [HasParity, hlevel] at h45
  | four =>
    rw [hlevel] at h
    -- Two disks of a row are lost, so its parity does not help.
    push Not at h
    obtain ⟨disk, hdisk, disk', hdisk', hlost, hlost', hne⟩ := h
    exact r.exists_hidden_parity (.inl hlevel) hdisk hdisk' hlost hlost' hne
  | five =>
    rw [hlevel] at h
    push Not at h
    obtain ⟨disk, hdisk, disk', hdisk', hlost, hlost', hne⟩ := h
    exact r.exists_hidden_parity (.inr hlevel) hdisk hdisk' hlost hlost' hne

/-- **Lost disks.** The disks that are left determine the data of an array, whatever has been
written to it, exactly if no more is lost than its level tolerates. -/
theorem survives_iff (hw : 0 < w) (lost : Set Nat) :
    (∀ content content' : Nat × Nat → BitVec w, r.Written content → r.Written content' →
      r.AgreeOff lost content content' → ∀ b, content (r.place b) = content' (r.place b)) ↔
      r.Tolerates lost := by
  constructor
  · intro h
    by_contra hnot
    obtain ⟨bs, hne, hhidden⟩ := r.exists_hidden hnot
    obtain ⟨b, hb⟩ := List.exists_mem_of_ne_nil bs hne
    obtain ⟨content, hwritten, hdata⟩ := r.exists_written bs
    have hzero : r.Written fun _ : Nat × Nat => 0#w := ⟨[], [], by simp, rfl⟩
    have hsame := h content _ hwritten hzero
      (r.agreeOff_of_hidden hhidden (Written.redundant r hwritten) hdata) b
    rw [hdata, if_pos hb] at hsame
    have hone : (1#w).toNat = (0#w).toNat := congrArg BitVec.toNat hsame
    rw [BitVec.toNat_ofNat, BitVec.toNat_ofNat, Nat.mod_eq_of_lt (Nat.one_lt_two_pow hw.ne')] at hone
    simp at hone
  · intro htol content content' h h' hagree b
    exact hagree.data htol (Written.redundant r h) (Written.redundant r h') b

/-- Eight-bit blocks on `raid5Three`, with the second disk lost. -/
theorem survives_iff_raid5Three : raid5Three.Tolerates {1} ∧
    ∀ content content' : Nat × Nat → BitVec 8, raid5Three.Written content →
      raid5Three.Written content' → raid5Three.AgreeOff {1} content content' →
      ∀ b, content (raid5Three.place b) = content' (raid5Three.place b) := by
  have htol : raid5Three.Tolerates {1} := by
    show ∀ disk < 3, ∀ disk' < 3, disk ∈ ({1} : Set Nat) → disk' ∈ ({1} : Set Nat) → disk = disk'
    rintro disk _ disk' _ rfl rfl
    rfl
  exact ⟨htol, (raid5Three.survives_iff (by decide) {1}).mpr htol⟩

end Raid

end OsLab
