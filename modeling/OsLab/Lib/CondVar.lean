import Mathlib.Logic.Function.Basic
import Mathlib.Data.Fintype.Card

/-!
# Condition variables

Threads are named by `ι` and each is at a program point in `π`. A signal wakes exactly one of the
threads that wait, whichever the scheduler picks, and is forgotten when nobody waits.

* **`signal`** -- a signal with the choice of the scheduler as an argument. `signal_some` and
  `signal_none` say what each choice does, and `exists_signal` that there is always one that fits: a
  signal never blocks.
* **`atPoint`** -- the number of threads at a program point. `atPoint_update` and `atPoint_signal`
  say how it moves when one thread moves, which is how invariants that count threads are kept.
-/

namespace OsLab.CondVar

variable {ι : Type*} {π : Type*} [DecidableEq ι] [Fintype ι]

/-- `signal` when the scheduler picks `choice`; a choice that does not fit has no result. -/
def signal (waiting : π → Bool) (wake : π → π) (threads : ι → π) (choice : Option ι) :
    Option (ι → π) :=
  match choice with
  | some i =>
    if waiting (threads i) then
      some (Function.update threads i (wake (threads i)))
    else
      none
  | none => if ∀ i, waiting (threads i) = false then some threads else none

variable {waiting : π → Bool} {wake : π → π} {threads threads' : ι → π}

/-- The choice of a thread fits if that thread waits; the signal wakes it and no other. -/
theorem signal_some {i : ι} :
    signal waiting wake threads (some i) = some threads' ↔
      waiting (threads i) = true ∧ threads' = Function.update threads i (wake (threads i)) := by
  simp only [signal, Option.ite_none_right_eq_some, Option.some.injEq,
    eq_comm (b := threads')]

/-- The choice of nobody fits only if nobody waits; then the signal is forgotten. -/
theorem signal_none :
    signal waiting wake threads none = some threads' ↔
      (∀ i, waiting (threads i) = false) ∧ threads' = threads := by
  rw [signal, Option.ite_none_right_eq_some, Option.some.injEq, eq_comm (a := threads)]

/-- Some choice always fits, so that a call of `signal` never blocks. -/
theorem exists_signal (waiting : π → Bool) (wake : π → π) (threads : ι → π) :
    ∃ choice threads', signal waiting wake threads choice = some threads' := by
  by_cases h : ∀ i, waiting (threads i) = false
  · exact ⟨none, threads, signal_none.mpr ⟨h, rfl⟩⟩
  · obtain ⟨i, hi⟩ := not_forall.mp h
    exact ⟨some i, _, signal_some.mpr ⟨by simpa using hi, rfl⟩⟩

/-- After a signal some thread does not wait: the one that was woken, or any thread if there was
nothing to wake. -/
theorem exists_not_waiting [Nonempty ι] (hwake : ∀ p, waiting (wake p) = false)
    {choice : Option ι} (h : signal waiting wake threads choice = some threads') :
    ∃ i, waiting (threads' i) = false := by
  cases choice with
  | some i =>
    obtain ⟨_, rfl⟩ := signal_some.mp h
    exact ⟨i, by simp [hwake]⟩
  | none =>
    obtain ⟨hnone, rfl⟩ := signal_none.mp h
    obtain ⟨i⟩ := ‹Nonempty ι›
    exact ⟨i, hnone i⟩

/-! ## How many threads are where -/

section Counting

variable [DecidableEq π] {i : ι} {p p' q w : π}

/-- The number of threads at `p`. -/
def atPoint (threads : ι → π) (p : π) : Nat := (Finset.univ.filter fun i => threads i = p).card

omit [DecidableEq ι] in
/-- No thread is at a point where none starts. -/
theorem atPoint_const_of_ne (h : p ≠ q) : atPoint (fun _ : ι => p) q = 0 := by
  simp [atPoint, h]

omit [DecidableEq ι] in
/-- The count is 0 exactly if every thread is elsewhere. -/
theorem atPoint_eq_zero : atPoint threads p = 0 ↔ ∀ i, threads i ≠ p := by
  simp [atPoint, Finset.filter_eq_empty_iff]

omit [DecidableEq ι] in
/-- A count that is not 0 gives a thread at that point. -/
theorem exists_atPoint (h : atPoint threads p ≠ 0) : ∃ i, threads i = p := by
  by_contra hnone
  exact h (atPoint_eq_zero.mpr fun i hi => hnone ⟨i, hi⟩)

/-- One thread goes from `p` to `p'`: the count of `p` loses it, that of `p'` gains it, and if the
two are the same point nothing changes. -/
theorem atPoint_update (hi : threads i = p) (p' q : π) :
    atPoint (Function.update threads i p') q + (if p = q then 1 else 0) =
      atPoint threads q + (if p' = q then 1 else 0) := by
  have hrest : (Finset.univ.filter fun j => Function.update threads i p' j = q).erase i =
      (Finset.univ.filter fun j => threads j = q).erase i := by
    ext j
    by_cases hj : j = i
    · simp [hj]
    · simp [hj]
  have hcard : ∀ (f : ι → π), (Finset.univ.filter fun j => f j = q).card =
      ((Finset.univ.filter fun j => f j = q).erase i).card + (if f i = q then 1 else 0) := by
    intro f
    split
    · exact (Finset.card_erase_add_one (by simpa using ‹f i = q›)).symm
    · rw [Finset.erase_eq_of_notMem (by simpa using ‹¬ f i = q›), Nat.add_zero]
  unfold atPoint
  rw [hcard (Function.update threads i p'), hcard threads, hrest, Function.update_self, hi]
  omega

/-- A signal moves one thread from `p` to `w`, unless nobody waits at `p`; all other counts stay. -/
theorem atPoint_signal {choice : Option ι} (hpw : p ≠ w)
    (h : signal (fun q => decide (q = p)) (fun _ => w) threads choice = some threads') :
    (atPoint threads p = 0 ∧ threads' = threads) ∨
      (atPoint threads' p + 1 = atPoint threads p ∧ atPoint threads' w = atPoint threads w + 1 ∧
        ∀ q, q ≠ p → q ≠ w → atPoint threads' q = atPoint threads q) := by
  cases choice with
  | some i =>
    obtain ⟨hwaiting, rfl⟩ := signal_some.mp h
    have hi : threads i = p := by simpa using hwaiting
    refine Or.inr ⟨?_, ?_, fun q hp hw => ?_⟩
    · simpa [hpw.symm] using atPoint_update hi w p
    · simpa [hpw] using atPoint_update hi w w
    · simpa [Ne.symm hp, Ne.symm hw] using atPoint_update hi w q
  | none =>
    obtain ⟨hnone, rfl⟩ := signal_none.mp h
    exact Or.inl ⟨atPoint_eq_zero.mpr fun i => by simpa using hnone i, rfl⟩

end Counting

end OsLab.CondVar
