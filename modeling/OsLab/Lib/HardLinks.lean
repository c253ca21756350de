import Mathlib.Data.List.Nodup
import Mathlib.Logic.Function.Basic
import OsLab.Lib.Lts

/-!
# Names for shared contents

A store of names, several of which may stand for the same thing. A thing has one content, which is
written at most once and shows under all of its names; it is gone with the last of them.

* **`HardLinks`** -- the store: the names, a relation that says which of them are linked, and what
  each of them shows. There are no inode numbers here; a file system with numbers is read as such a
  store.
* **`system`** -- creating a name, linking a new name to one that is there, writing to a name that
  shows nothing yet, and unlinking a name.
* **`WellFormed`** -- the invariant: linked is an equivalence on the names, and linked names show
  the same. `run_wellFormed` carries it over runs.
* **`run_linked`**, **`run_content`** -- what a run of such operations leaves alone.
-/

namespace OsLab

/-- The names, which of them stand for the same thing, and what they show. -/
@[ext] structure HardLinks (ν : Type*) (δ : Type*) where
  names : List ν
  Linked : ν → ν → Prop
  content : ν → Option δ

namespace HardLinks

variable {ν δ : Type*} [DecidableEq ν] {h h' : HardLinks ν δ} {p q r : ν} {d : δ}

/-! ## Operations -/

inductive Op (ν : Type*) (δ : Type*) where
  | create (p : ν)
  | link (target p : ν)
  | write (p : ν) (d : δ)
  | unlink (p : ν)

def empty : HardLinks ν δ := ⟨[], fun _ _ => False, fun _ => none⟩

def create (h : HardLinks ν δ) (p : ν) : HardLinks ν δ where
  names := h.names ++ [p]
  Linked a b := h.Linked a b ∨ a = p ∧ b = p
  content := h.content

/-- The new name `p` stands in for `target`. -/
def twin (target p a : ν) : ν := if a = p then target else a

def link (h : HardLinks ν δ) (target p : ν) : HardLinks ν δ where
  names := h.names ++ [p]
  Linked a b := h.Linked (twin target p a) (twin target p b)
  content a := h.content (twin target p a)

open Classical in
noncomputable def write (h : HardLinks ν δ) (p : ν) (d : δ) : HardLinks ν δ :=
  { h with content := fun a => if h.Linked p a then some d else h.content a }

def unlink (h : HardLinks ν δ) (p : ν) : HardLinks ν δ where
  names := h.names.erase p
  Linked a b := a ≠ p ∧ b ≠ p ∧ h.Linked a b
  content := Function.update h.content p none

noncomputable def Op.apply (h : HardLinks ν δ) : Op ν δ → HardLinks ν δ
  | .create p => h.create p
  | .link target p => h.link target p
  | .write p d => h.write p d
  | .unlink p => h.unlink p

/-- New names are new, and only what has no content yet is written. -/
def Op.Enabled (h : HardLinks ν δ) : Op ν δ → Prop
  | .create p => p ∉ h.names
  | .link target p => target ∈ h.names ∧ p ∉ h.names
  | .write p _ => p ∈ h.names ∧ h.content p = none
  | .unlink p => p ∈ h.names

def system (ν : Type*) (δ : Type*) [DecidableEq ν] : Lts (HardLinks ν δ) (Op ν δ) where
  init h := h = empty
  step h op h' := op.Enabled h ∧ h' = op.apply h

omit [DecidableEq ν] in
/-- A write shows under every name that is linked to the one written to. -/
theorem write_linked (hpq : h.Linked p q) : (h.write p d).content q = some d := if_pos hpq

omit [DecidableEq ν] in
/-- Names that are not linked to it show what they have shown. -/
theorem write_not_linked (hpq : ¬ h.Linked p q) : (h.write p d).content q = h.content q :=
  if_neg hpq

/-! ## Well-formed stores -/

/-- `Linked` is an equivalence on the names, and linked names show the same. -/
structure WellFormed (h : HardLinks ν δ) : Prop where
  nodup : h.names.Nodup
  refl : ∀ p ∈ h.names, h.Linked p p
  symm : ∀ p q, h.Linked p q → h.Linked q p
  trans : ∀ p q r, h.Linked p q → h.Linked q r → h.Linked p r
  mem : ∀ p q, h.Linked p q → p ∈ h.names
  same : ∀ p q, h.Linked p q → h.content p = h.content q
  outside : ∀ p, p ∉ h.names → h.content p = none

namespace WellFormed

omit [DecidableEq ν] in
/-- A name that is not there is linked to nothing. -/
theorem not_linked_left (hw : h.WellFormed) (hp : p ∉ h.names) : ¬ h.Linked p q :=
  fun hpq => hp (hw.mem p q hpq)

omit [DecidableEq ν] in
/-- Nothing is linked to a name that is not there. -/
theorem not_linked_right (hw : h.WellFormed) (hp : p ∉ h.names) : ¬ h.Linked q p :=
  fun hqp => hw.not_linked_left hp (hw.symm q p hqp)

omit [DecidableEq ν] in
/-- A new name keeps the names different. -/
theorem nodup_snoc (hw : h.WellFormed) (hp : p ∉ h.names) : (h.names ++ [p]).Nodup := by
  rw [List.nodup_append]
  refine ⟨hw.nodup, List.nodup_singleton p, ?_⟩
  intro a ha b hb
  rw [List.mem_singleton.mp hb]
  exact ne_of_mem_of_not_mem ha hp

omit [DecidableEq ν] in
/-- A new name of its own keeps the store well formed: it is linked to itself alone. -/
theorem create (hw : h.WellFormed) (hp : p ∉ h.names) : (h.create p).WellFormed where
  nodup := hw.nodup_snoc hp
  refl a ha := by
    rcases List.mem_append.mp ha with hold | hnew
    · exact Or.inl (hw.refl a hold)
    · have hap := List.mem_singleton.mp hnew
      exact Or.inr ⟨hap, hap⟩
  symm a b hab := hab.imp (hw.symm a b) And.symm
  trans a b c hab hbc := by
    rcases hab with hab | ⟨ha, hb⟩
    · rcases hbc with hbc | ⟨hb, _⟩
      · exact Or.inl (hw.trans a b c hab hbc)
      · exact absurd (hb ▸ hab) (hw.not_linked_right hp)
    · rcases hbc with hbc | ⟨_, hc⟩
      · exact absurd (hb ▸ hbc) (hw.not_linked_left hp)
      · exact Or.inr ⟨ha, hc⟩
  mem a b hab := by
    rcases hab with hab | ⟨ha, _⟩
    · exact List.mem_append_left _ (hw.mem a b hab)
    · exact List.mem_append_right _ (List.mem_singleton.mpr ha)
  same a b hab := by
    rcases hab with hab | ⟨ha, hb⟩
    · exact hw.same a b hab
    · rw [ha, hb]
  outside a ha := hw.outside a fun hold => ha (List.mem_append_left _ hold)

/-- The twin of a name old or new is an old name. -/
theorem twin_mem (hq : q ∈ h.names) {a : ν} (ha : a ∈ h.names ++ [p]) :
    twin q p a ∈ h.names := by
  unfold twin
  split
  · exact hq
  · rcases List.mem_append.mp ha with hold | hnew
    · exact hold
    · exact absurd (List.mem_singleton.mp hnew) ‹_›

/-- A name whose twin is an old name is an old name or the new one. -/
theorem mem_of_twin {a : ν} (ha : twin q p a ∈ h.names) : a ∈ h.names ++ [p] := by
  unfold twin at ha
  split at ha
  · exact List.mem_append_right _ (List.mem_singleton.mpr ‹_›)
  · exact List.mem_append_left _ ha

/-- A new name for a thing keeps the store well formed: through `twin` it stands in for the name
that it is linked to. -/
theorem link (hw : h.WellFormed) (hq : q ∈ h.names) (hp : p ∉ h.names) :
    (h.link q p).WellFormed where
  nodup := hw.nodup_snoc hp
  refl _ ha := hw.refl _ (twin_mem hq ha)
  symm _ _ := hw.symm _ _
  trans _ _ _ := hw.trans _ _ _
  mem _ _ hab := mem_of_twin (hw.mem _ _ hab)
  same _ _ := hw.same _ _
  outside _ ha := hw.outside _ fun hold => ha (mem_of_twin hold)

omit [DecidableEq ν] in
/-- A write keeps the store well formed, since it shows under all names of the thing at once. -/
theorem write (hw : h.WellFormed) (p : ν) (d : δ) : (h.write p d).WellFormed where
  nodup := hw.nodup
  refl := hw.refl
  symm := hw.symm
  trans := hw.trans
  mem := hw.mem
  same a b hab := by
    have hiff : h.Linked p a ↔ h.Linked p b :=
      ⟨fun hpa => hw.trans p a b hpa hab, fun hpb => hw.trans p b a hpb (hw.symm a b hab)⟩
    by_cases hpa : h.Linked p a
    · rw [write_linked hpa, write_linked (hiff.mp hpa)]
    · rw [write_not_linked hpa, write_not_linked fun hpb => hpa (hiff.mpr hpb), hw.same a b hab]
  outside a ha := by
    rw [write_not_linked (hw.not_linked_right ha), hw.outside a ha]

/-- Taking a name away keeps the store well formed: the others are linked as before. -/
theorem unlink (hw : h.WellFormed) (p : ν) : (h.unlink p).WellFormed where
  nodup := hw.nodup.erase p
  refl a ha := by
    obtain ⟨hap, hold⟩ := hw.nodup.mem_erase_iff.mp ha
    exact ⟨hap, hap, hw.refl a hold⟩
  symm a b hab := ⟨hab.2.1, hab.1, hw.symm a b hab.2.2⟩
  trans a b c hab hbc := ⟨hab.1, hbc.2.1, hw.trans a b c hab.2.2 hbc.2.2⟩
  mem a b hab := hw.nodup.mem_erase_iff.mpr ⟨hab.1, hw.mem a b hab.2.2⟩
  same a b hab := by
    show Function.update h.content p none a = Function.update h.content p none b
    rw [Function.update_of_ne hab.1, Function.update_of_ne hab.2.1, hw.same a b hab.2.2]
  outside a ha := by
    show Function.update h.content p none a = none
    by_cases hap : a = p
    · rw [hap, Function.update_self]
    · rw [Function.update_of_ne hap]
      exact hw.outside a fun hold => ha (hw.nodup.mem_erase_iff.mpr ⟨hap, hold⟩)

/-- Every operation that is enabled keeps the store well formed, one case for each. -/
theorem step {op : Op ν δ} (hw : h.WellFormed) (hop : op.Enabled h) : (op.apply h).WellFormed := by
  cases op with
  | create p => exact hw.create hop
  | link target p => exact hw.link hop.1 hop.2
  | write p d => exact hw.write p d
  | unlink p => exact hw.unlink p

end WellFormed

/-! ## What a run leaves alone -/

/-- A name that is not the one unlinked stays, with its links to other such names: no operation
separates two names or brings two together. -/
theorem step_linked {op : Op ν δ} (hop : op.Enabled h) (hp : p ∈ h.names) (hq : q ∈ h.names)
    (hpop : op ≠ .unlink p) (hqop : op ≠ .unlink q) :
    p ∈ (op.apply h).names ∧ ((op.apply h).Linked p q ↔ h.Linked p q) := by
  cases op with
  | create r =>
    have hpr := ne_of_mem_of_not_mem hp hop
    exact ⟨List.mem_append_left _ hp, by simp [Op.apply, create, hpr]⟩
  | link target r =>
    have hpr := ne_of_mem_of_not_mem hp hop.2
    have hqr := ne_of_mem_of_not_mem hq hop.2
    exact ⟨List.mem_append_left _ hp, by simp [Op.apply, link, twin, hpr, hqr]⟩
  | write r d => exact ⟨hp, Iff.rfl⟩
  | unlink r =>
    have hpr : p ≠ r := fun heq => hpop (heq ▸ rfl)
    have hqr : q ≠ r := fun heq => hqop (heq ▸ rfl)
    exact ⟨(List.mem_erase_of_ne hpr).mpr hp, by simp [Op.apply, unlink, hpr, hqr]⟩

/-- What has a content keeps it: no operation writes over it, and an unlinked name takes no content
from the others. -/
theorem step_content {op : Op ν δ} (hw : h.WellFormed) (hop : op.Enabled h)
    (hp : h.content p = some d) (hpop : op ≠ .unlink p) : (op.apply h).content p = some d := by
  have hmem : p ∈ h.names := by
    by_contra hout
    rw [hw.outside p hout] at hp
    cases hp
  cases op with
  | create r => exact hp
  | link target r =>
    have hpr := ne_of_mem_of_not_mem hmem hop.2
    show h.content (twin target r p) = some d
    rw [twin, if_neg hpr, hp]
  | write r e =>
    -- the thing written to had no content, so `p` is not one of its names
    have hrp : ¬ h.Linked r p := by
      intro hrp
      rw [← hw.same r p hrp, hop.2] at hp
      cases hp
    exact (write_not_linked hrp).trans hp
  | unlink r =>
    have hpr : p ≠ r := fun heq => hpop (heq ▸ rfl)
    show Function.update h.content r none p = some d
    rw [Function.update_of_ne hpr, hp]

section Run

variable {ops : List (Op ν δ)}

/-- The invariant over whole runs. -/
theorem run_wellFormed (hw : h.WellFormed) (hrun : (system ν δ).Run h ops h') :
    h'.WellFormed := by
  refine hrun.invariant (I := WellFormed) ?_ hw
  rintro h op h' hw ⟨hop, rfl⟩
  exact hw.step hop

/-- Names that are never unlinked are neither confused nor separated: they are linked at the end of
the run if and only if they were at its start. -/
theorem run_linked (hrun : (system ν δ).Run h ops h') (hp : p ∈ h.names) (hq : q ∈ h.names)
    (hpops : .unlink p ∉ ops) (hqops : .unlink q ∉ ops) :
    (p ∈ h'.names ∧ q ∈ h'.names) ∧ (h'.Linked p q ↔ h.Linked p q) := by
  induction hrun with
  | nil => exact ⟨⟨hp, hq⟩, Iff.rfl⟩
  | @snoc ops h₁ h₂ op _ last ih =>
    rw [List.mem_append, List.mem_singleton, not_or] at hpops hqops
    obtain ⟨⟨hp₁, hq₁⟩, hiff⟩ := ih hpops.1 hqops.1
    obtain ⟨hop, rfl⟩ := last
    have hpop := Ne.symm hpops.2
    have hqop := Ne.symm hqops.2
    obtain ⟨hp₂, hlinked⟩ := step_linked hop hp₁ hq₁ hpop hqop
    obtain ⟨hq₂, _⟩ := step_linked hop hq₁ hp₁ hqop hpop
    exact ⟨⟨hp₂, hq₂⟩, hlinked.trans hiff⟩

/-- A content, once written, shows under a name for as long as the name is there. -/
theorem run_content (hw : h.WellFormed) (hrun : (system ν δ).Run h ops h')
    (hp : h.content p = some d) (hpops : .unlink p ∉ ops) : h'.content p = some d := by
  induction hrun with
  | nil => exact hp
  | @snoc ops h₁ h₂ op run last ih =>
    rw [List.mem_append, List.mem_singleton, not_or] at hpops
    have hw₁ := run_wellFormed hw run
    obtain ⟨hop, rfl⟩ := last
    exact step_content hw₁ hop (ih hpops.1) (Ne.symm hpops.2)

end Run

end HardLinks

end OsLab
