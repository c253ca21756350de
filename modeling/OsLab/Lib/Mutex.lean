import Mathlib.Logic.Basic

/-!
# A lock and the threads inside it

`inside i` says that thread `i` is between taking the lock and giving it back. As long as only a
thread that is inside gives the lock back, the lock's owner is the one thread inside. `Held` is this
invariant, and `Held.step` keeps it over the three things that a step of a thread can do to the
lock.
-/

namespace OsLab.Mutex

variable {ι : Type*} {owner owner' : Option ι} {inside inside' : ι → Prop}

/-- The owner of the lock is the thread inside. -/
def Held (owner : Option ι) (inside : ι → Prop) : Prop := ∀ i, inside i ↔ owner = some i

/-- Two threads inside are one and the same: this is mutual exclusion. -/
theorem Held.atMostOne (h : Held owner inside) {i j : ι} (hi : inside i) (hj : inside j) :
    i = j := by
  have howner : some i = some j := ((h i).mp hi).symm.trans ((h j).mp hj)
  exact Option.some.inj howner

/-- What a step of thread `i` does to the lock. -/
inductive Step (owner : Option ι) (inside : ι → Prop) (i : ι) (owner' : Option ι)
    (inside' : ι → Prop) : Prop where
  | acquire (free : owner = none) (owned : owner' = some i) (enters : inside' i)
  | keep (owned : owner' = owner) (stays : inside' i ↔ inside i)
  | release (wasInside : inside i) (freed : owner' = none) (leaves : ¬ inside' i)

/-- The invariant is kept when thread `i` takes the free lock, gives its own lock back or does
neither, and the other threads stay where they are. -/
theorem Held.step (h : Held owner inside) {i : ι} (hother : ∀ j, j ≠ i → (inside' j ↔ inside j))
    (hstep : Step owner inside i owner' inside') : Held owner' inside' := by
  intro j
  by_cases hj : j = i
  · subst hj
    cases hstep with
    | acquire free owned enters => simp [owned, enters]
    | keep owned stays => rw [owned, stays, h j]
    | release wasInside freed leaves => simp [freed, leaves]
  · rw [hother j hj, h j]
    cases hstep with
    | acquire free owned enters => simp [free, owned, Ne.symm hj]
    | keep owned stays => rw [owned]
    | release wasInside freed leaves =>
      rw [(h i).mp wasInside, freed]
      simp [Ne.symm hj]

end OsLab.Mutex
