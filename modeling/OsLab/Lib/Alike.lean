import Mathlib.Logic.Basic
import OsLab.Lib.Lts

/-!
# Computations that end alike

Two computations over different data end alike if both fail with the same error, or both return
values that a relation holds of. Systems whose steps end alike have the same runs.

* **`EndAlike`** -- the relation, with a rule for each way in which computations are put together:
  `bind` for two parts that end alike, `bind_same` for a first part that both sides share, `of_map`
  for a computation whose data are carried along.
* **`of_left`**, **`of_right`** -- an end of one side gives one of the other.
* **`Lts.Run.follow`** -- steps that can be followed make runs that can be followed, with the same
  labels.
-/

namespace OsLab

variable {ε α β α' β' : Type}

/-- Both fail alike, or return values that `R` relates. -/
inductive EndAlike (R : α → β → Prop) : Except ε α → Except ε β → Prop where
  | error (e : ε) : EndAlike R (.error e) (.error e)
  | ok {a : α} {b : β} (h : R a b) : EndAlike R (.ok a) (.ok b)

namespace EndAlike

variable {R : α → β → Prop} {S : α' → β' → Prop} {x : Except ε α} {y : Except ε β}

/-- The rule for a sequence. If the first parts end alike and the second parts do so on related
values, the whole computations end alike; an error of the first part is the error of both. -/
theorem bind {f : α → Except ε α'} {g : β → Except ε β'} (h : EndAlike R x y)
    (hf : ∀ a b, x = .ok a → R a b → EndAlike S (f a) (g b)) :
    EndAlike S (x >>= f) (y >>= g) := by
  cases h with
  | error e => exact .error e
  | ok hab => exact hf _ _ rfl hab

/-- The first part is the same computation on both sides, so that only the parts after it have to be
compared, on the value that it returns. -/
theorem bind_same {f : α → Except ε α'} {g : α → Except ε β'}
    (hf : ∀ a, x = .ok a → EndAlike S (f a) (g a)) : EndAlike S (x >>= f) (x >>= g) := by
  cases x with
  | error e => exact .error e
  | ok a => exact hf a rfl

/-- A computation whose value is carried over by `f` ends like the original, with the relation
between a value and its image. -/
theorem of_map {f : α → β} (hy : y = x.map f) (h : ∀ a, x = .ok a → R a (f a)) :
    EndAlike R x y := by
  subst hy
  cases x with
  | error e => exact .error e
  | ok a => exact .ok (h a rfl)

/-- A relation that follows from `R` for the values returned may stand in its place. -/
theorem mono {R' : α → β → Prop} (h : EndAlike R x y)
    (himp : ∀ a b, x = .ok a → R a b → R' a b) : EndAlike R' x y := by
  cases h with
  | error e => exact .error e
  | ok hab => exact .ok (himp _ _ rfl hab)

/-- When the left side returns, the right side returns a related value. -/
theorem of_left {a : α} (h : EndAlike R x y) (hx : x = .ok a) : ∃ b, y = .ok b ∧ R a b := by
  subst hx
  cases h with
  | ok hab => exact ⟨_, rfl, hab⟩

/-- When the right side returns, the left side returns a related value. With `of_left` this lets
either side be the one that is known. -/
theorem of_right {b : β} (h : EndAlike R x y) (hy : y = .ok b) : ∃ a, x = .ok a ∧ R a b := by
  subst hy
  cases h with
  | ok hab => exact ⟨_, rfl, hab⟩

/-- Errors are the same on both sides, so a failure needs no relation to be carried over. -/
theorem error_iff {e : ε} (h : EndAlike R x y) : x = .error e ↔ y = .error e := by
  cases h with
  | error e' => simp
  | ok hab => simp

end EndAlike

/-- A system follows the runs of another one, with the same labels, if it can follow each of its
steps from related states. -/
theorem Lts.Run.follow {σ τ : Type*} {M : Lts σ α} {N : Lts τ α} {R : σ → τ → Prop}
    (hstep : ∀ s s' t a, R s t → M.step s a s' → ∃ t', N.step t a t' ∧ R s' t') {s s' : σ}
    {t : τ} {as : List α} (h : M.Run s as s') (hR : R s t) : ∃ t', N.Run t as t' ∧ R s' t' := by
  induction h with
  | nil => exact ⟨t, .nil, hR⟩
  | snoc _ last ih =>
    obtain ⟨t', hrun, hR'⟩ := ih
    obtain ⟨t'', hlast, hR''⟩ := hstep _ _ _ _ hR' last
    exact ⟨t'', .snoc hrun hlast, hR''⟩

end OsLab
