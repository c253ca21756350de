import Mathlib.Data.List.Basic

/-!
# References into a log

A log only grows, and the references into it move to blocks behind its old end. If each new block is
written for one reference, no block ever has two, and a block that has lost its reference does not
get another one.

* **`Owned`** -- the invariant: every block has at most one reference, and every reference is to a
  block of the log.
* **`Moves`** -- what an operation does: a block is appended for each of some references
  (`MovesFor`), and other references are kept or dropped. Such steps compose, `Moves.trans`.
* **`Owned.moves`**, **`Moves.live`** -- no block gets a second reference, and what is dead stays
  dead.
-/

namespace OsLab

variable {ρ : Type*} {n n' n'' a : Nat} {target target' target'' : ρ → Option Nat} {r r' : ρ}

/-- Every block of a log with `n` blocks has at most one reference. -/
structure Owned (n : Nat) (target : ρ → Option Nat) : Prop where
  lt : ∀ r a, target r = some a → a < n
  unique : ∀ r r' a, target r = some a → target r' = some a → r = r'

/-- The log has grown by a block for each of `owners`. -/
def MovesFor (n : Nat) (target target' : ρ → Option Nat) (owners : List ρ) : Prop :=
  ∀ r a, target' r = some a →
    target r = some a ∨ ∃ k, a = n + k ∧ owners[k]? = some r

/-- What a log of `n` blocks becomes. -/
def Moves (n : Nat) (target : ρ → Option Nat) (n' : Nat) (target' : ρ → Option Nat) : Prop :=
  ∃ owners : List ρ, n' = n + owners.length ∧ MovesFor n target target' owners

/-- Block `a` has a reference. -/
def Live (target : ρ → Option Nat) (a : Nat) : Prop := ∃ r, target r = some a

/-! ## Growing -/

/-- Dropping references appends nothing. -/
theorem Moves.of_kept (h : ∀ r a, target' r = some a → target r = some a) :
    Moves n target n target' :=
  ⟨[], rfl, fun r a ha => .inl (h r a ha)⟩

/-- An operation that does nothing to the log and its references. -/
theorem Moves.refl (n : Nat) (target : ρ → Option Nat) : Moves n target n target :=
  .of_kept fun _ _ ha => ha

/-- Two operations after each other append a block for each reference of both. -/
theorem MovesFor.trans {owners owners' : List ρ} (h : MovesFor n target target' owners)
    (h' : MovesFor (n + owners.length) target' target'' owners') :
    MovesFor n target target'' (owners ++ owners') := by
  intro r a ha
  rcases h' r a ha with hkept | ⟨k, rfl, hk⟩
  · rcases h r a hkept with hkept | ⟨k, rfl, hk⟩
    · exact .inl hkept
    · refine .inr ⟨k, rfl, ?_⟩
      rwa [List.getElem?_append_left (List.getElem?_eq_some_iff.mp hk).1]
  · refine .inr ⟨owners.length + k, Nat.add_assoc .., ?_⟩
    rwa [List.getElem?_append_right (Nat.le_add_right ..), Nat.add_sub_cancel_left]

/-- Two operations after each other are one as far as the log and its references go. -/
theorem Moves.trans (h : Moves n target n' target') (h' : Moves n' target' n'' target'') :
    Moves n target n'' target'' := by
  obtain ⟨owners, rfl, hmoves⟩ := h
  obtain ⟨owners', rfl, hmoves'⟩ := h'
  exact ⟨owners ++ owners', by rw [List.length_append, Nat.add_assoc], hmoves.trans hmoves'⟩

/-- A reference is as it was, or is to a new block. -/
theorem Moves.kept_or_new (h : Moves n target n' target') (ha : target' r = some a) :
    target r = some a ∨ n ≤ a := by
  obtain ⟨owners, -, hmoves⟩ := h
  exact (hmoves r a ha).imp_right fun ⟨k, hk, _⟩ => hk ▸ Nat.le_add_right n k

/-! ## What growing keeps -/

/-- No block gets a second reference: old blocks get none, and each new block has the one it was
written for. -/
theorem Owned.moves (h : Owned n target) (hmoves : Moves n target n' target') :
    Owned n' target' := by
  obtain ⟨owners, rfl, hfor⟩ := hmoves
  constructor
  · intro r a ha
    rcases hfor r a ha with hkept | ⟨k, rfl, hk⟩
    · exact Nat.lt_of_lt_of_le (h.lt r a hkept) (Nat.le_add_right ..)
    · exact Nat.add_lt_add_left (List.getElem?_eq_some_iff.mp hk).1 n
  · intro r r' a ha ha'
    rcases hfor r a ha with hkept | ⟨k, rfl, hk⟩
    · rcases hfor r' a ha' with hkept' | ⟨k', rfl, -⟩
      · exact h.unique r r' a hkept hkept'
      · -- an old block is not one of the new ones
        have hlt := h.lt r _ hkept
        omega
    · rcases hfor r' _ ha' with hkept' | ⟨k', hsame, hk'⟩
      · have hlt := h.lt r' _ hkept'
        omega
      · obtain rfl : k = k' := Nat.add_left_cancel hsame
        exact Option.some.inj (hk.symm.trans hk')

/-- What has lost its reference does not come back: a block of the old log that has a reference had
it before. -/
theorem Moves.live (h : Moves n target n' target') (ha : a < n) (hlive : Live target' a) :
    Live target a := by
  obtain ⟨r, hr⟩ := hlive
  rcases h.kept_or_new hr with hkept | hnew
  · exact ⟨r, hkept⟩
  · omega

end OsLab
