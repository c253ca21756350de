import OsLab.Lib.CondVar
import OsLab.Lib.Lts

/-!
# The water reaction

Hydrogens `ι` and oxygens `κ`, one thread each. What a thread does from taking `makingWater` to its
next `cond_wait` or to the release of the lock is one step. Which waiter a signal wakes is an
argument of the step, so a run is any interleaving with any choices of the scheduler.

* **`Reaction`**, **`reactionNext`**, **`reactionSystem`** -- `struct reaction` with the program
  points of the threads, and the steps of `reaction_h` and `reaction_o`.
* **`Balanced`** -- the invariant: the counters are the numbers of threads at the program points,
  and an oxygen that waits although there are two hydrogens for it has a woken one before it.
  `Balanced.next` keeps it, one case for each step.
* **`Stuck.quiet`**, **`Balanced.stuck`** -- where nobody can go on all threads have returned or
  wait, and the invariant counts the water.
* **`reaction_balanced`** -- the two results about all reachable states.
-/

namespace OsLab.Threads

open CondVar

/-- Where a thread is in `reaction_h` or `reaction_o`; a woken thread has to take the lock again. -/
inductive AtomPc where
  | outside
  | waiting
  | woken
  | returned
  deriving DecidableEq

/-- `struct reaction`, the threads, and the calls of `make_water` so far. -/
structure Reaction (ι κ : Type) where
  numH : Int
  numO : Int
  hydrogen : ι → AtomPc
  oxygen : κ → AtomPc
  water : Nat

inductive ReactionStep (ι κ : Type) where
  | enterH (i : ι) (choice : Option κ)
  | returnH (i : ι)
  | enterO (j : κ) (first second : Option ι)
  | resumeO (j : κ) (first second : Option ι)

section Model

variable {ι κ : Type} [DecidableEq ι] [Fintype ι] [DecidableEq κ] [Fintype κ]

/-- `cond_signal` for threads that wait at `waiting`. -/
def signalAtom {τ : Type} [DecidableEq τ] [Fintype τ] (threads : τ → AtomPc) (choice : Option τ) :
    Option (τ → AtomPc) :=
  signal (fun pc => decide (pc = .waiting)) (fun _ => .woken) threads choice

/-- `reaction_init` -/
def reactionInit : Reaction ι κ where
  numH := 0
  numO := 0
  hydrogen _ := .outside
  oxygen _ := .outside
  water := 0

/-- `reaction_h` up to its `cond_wait`. -/
def reactionH (s : Reaction ι κ) (i : ι) (choice : Option κ) : Option (Reaction ι κ) := do
  let oxygen ← signalAtom s.oxygen choice
  return { s with
    numH := s.numH + 1
    oxygen := oxygen
    hydrogen := Function.update s.hydrogen i .waiting }

/-- `reaction_o` from the test of its loop on. -/
def reactionOLoop (s : Reaction ι κ) (j : κ) (first second : Option ι) : Option (Reaction ι κ) :=
  if s.numH < 2 then
    some { s with oxygen := Function.update s.oxygen j .waiting }
  else do
    let hydrogen ← signalAtom s.hydrogen first
    let hydrogen ← signalAtom hydrogen second
    return { s with
      water := s.water + 1
      numH := s.numH - 2
      numO := s.numO - 1
      hydrogen := hydrogen
      oxygen := Function.update s.oxygen j .returned }

def reactionNext (s : Reaction ι κ) : ReactionStep ι κ → Option (Reaction ι κ)
  | .enterH i choice => if s.hydrogen i = .outside then reactionH s i choice else none
  | .returnH i =>
    if s.hydrogen i = .woken then
      some { s with hydrogen := Function.update s.hydrogen i .returned }
    else
      none
  | .enterO j first second =>
    if s.oxygen j = .outside then
      reactionOLoop { s with numO := s.numO + 1 } j first second
    else
      none
  | .resumeO j first second =>
    if s.oxygen j = .woken then reactionOLoop s j first second else none

/-- All interleavings of one `reaction_h` call for each `ι` and one `reaction_o` call for each `κ`. -/
def reactionSystem (ι κ : Type) [DecidableEq ι] [Fintype ι] [DecidableEq κ] [Fintype κ] :
    Lts (Reaction ι κ) (ReactionStep ι κ) :=
  .ofFun (· = reactionInit) reactionNext

/-! ## The atoms -/

/-- The calls that have entered their locked section. -/
def entered {τ : Type} [Fintype τ] (threads : τ → AtomPc) : Nat :=
  (Finset.univ.filter fun i => threads i ≠ .outside).card

/-- The waiters that have been signalled. -/
def signalled {τ : Type} [Fintype τ] (threads : τ → AtomPc) : Nat :=
  (Finset.univ.filter fun i => threads i = .woken ∨ threads i = .returned).card

section Counts

variable {τ : Type} [Fintype τ] (threads : τ → AtomPc)

/-- A signalled waiter has not taken the lock again yet, or has returned. -/
theorem signalled_eq :
    signalled threads = atPoint threads .woken + atPoint threads .returned := by
  classical
  unfold signalled atPoint
  rw [Finset.filter_or, Finset.card_union_of_disjoint]
  refine Finset.disjoint_filter.mpr fun i _ hwoken hreturned => ?_
  rw [hwoken] at hreturned
  cases hreturned

/-- Whoever has entered waits or has been signalled. -/
theorem entered_eq :
    entered threads = atPoint threads .waiting + signalled threads := by
  classical
  unfold entered signalled atPoint
  rw [← Finset.card_union_of_disjoint]
  · congr 1
    ext i
    cases hpc : threads i <;> simp [hpc]
  · refine Finset.disjoint_filter.mpr fun i _ hwaiting hsignalled => ?_
    rw [hwaiting] at hsignalled
    simp at hsignalled

/-- A thread has not entered or it has. -/
theorem outside_add_entered : atPoint threads .outside + entered threads = Fintype.card τ :=
  Finset.card_filter_add_card_filter_not _

end Counts

/-- A signal that finds a waiter moves one thread from waiting to woken; one that finds none changes
nothing. -/
theorem signalAtom_counts {τ : Type} [DecidableEq τ] [Fintype τ] {threads threads' : τ → AtomPc}
    {choice : Option τ} (h : signalAtom threads choice = some threads') :
    (atPoint threads .waiting = 0 ∧ threads' = threads) ∨
      (atPoint threads' .waiting + 1 = atPoint threads .waiting ∧
        atPoint threads' .woken = atPoint threads .woken + 1 ∧
        atPoint threads' .outside = atPoint threads .outside ∧
        atPoint threads' .returned = atPoint threads .returned) := by
  rcases atPoint_signal (by decide) h with hnone | ⟨hwaiting, hwoken, hother⟩
  · exact Or.inl hnone
  · exact Or.inr ⟨hwaiting, hwoken, hother .outside (by decide) (by decide),
      hother .returned (by decide) (by decide)⟩

/-- The hydrogens that wait are those that no oxygen has used; an oxygen that waits while there
are two of them for it has another one woken before it. -/
structure Balanced (s : Reaction ι κ) : Prop where
  numH : s.numH = atPoint s.hydrogen .waiting
  signalled : atPoint s.hydrogen .woken + atPoint s.hydrogen .returned = 2 * s.water
  made : atPoint s.oxygen .returned = s.water
  wakeUps : atPoint s.oxygen .waiting ≠ 0 → s.numH ≤ 2 * atPoint s.oxygen .woken + 1

omit [DecidableEq ι] [DecidableEq κ] in
/-- Before the first call nobody waits and there is no water. -/
theorem balanced_init : Balanced (reactionInit : Reaction ι κ) where
  numH := by simp [reactionInit, atPoint_const_of_ne]
  signalled := by simp [reactionInit, atPoint_const_of_ne]
  made := by simp [reactionInit, atPoint_const_of_ne]
  wakeUps h := by simp [reactionInit, atPoint_const_of_ne] at h

variable {s t : Reaction ι κ} {i : ι} {j : κ}

/-- A hydrogen enters: it counts itself, signals the oxygens and waits. An oxygen that now has two
hydrogens is the one woken by this signal, or comes behind it. -/
theorem Balanced.enterH (h : Balanced s) (hi : s.hydrogen i = .outside) {choice : Option κ}
    (hstep : reactionH s i choice = some t) : Balanced t := by
  obtain ⟨oxygen, hsignal, hstep⟩ := Option.bind_eq_some_iff.mp hstep
  obtain rfl := Option.some.inj hstep
  have hmove := fun q => atPoint_update hi .waiting q
  have hwaiting := hmove .waiting
  have hwoken := hmove .woken
  have hreturned := hmove .returned
  simp only [reduceCtorEq, if_true, if_false, Nat.add_zero] at hwaiting hwoken hreturned
  have hnumH := h.numH
  have hsignalled := h.signalled
  have hmade := h.made
  have hwakeUps := h.wakeUps
  rcases signalAtom_counts hsignal with ⟨hnone, rfl⟩ | ⟨howaiting, howoken, _, horeturned⟩
  · -- no oxygen waits
    refine ⟨?_, ?_, hmade, fun hne => absurd hnone hne⟩
    · show s.numH + 1 = atPoint (Function.update s.hydrogen i .waiting) .waiting
      omega
    · show atPoint (Function.update s.hydrogen i .waiting) .woken +
        atPoint (Function.update s.hydrogen i .waiting) .returned = 2 * s.water
      omega
  · refine ⟨?_, ?_, ?_, fun _ => ?_⟩
    · show s.numH + 1 = atPoint (Function.update s.hydrogen i .waiting) .waiting
      omega
    · show atPoint (Function.update s.hydrogen i .waiting) .woken +
        atPoint (Function.update s.hydrogen i .waiting) .returned = 2 * s.water
      omega
    · show atPoint oxygen .returned = s.water
      omega
    · show s.numH + 1 ≤ 2 * (atPoint oxygen .woken : Int) + 1
      have hbound := hwakeUps (by omega)
      omega

omit [DecidableEq κ] in
/-- A woken hydrogen returns. It was counted as used when it was signalled. -/
theorem Balanced.returnH (h : Balanced s) (hi : s.hydrogen i = .woken) :
    Balanced { s with hydrogen := Function.update s.hydrogen i .returned } := by
  have hmove := fun q => atPoint_update hi .returned q
  have hwaiting := hmove .waiting
  have hwoken := hmove .woken
  have hreturned := hmove .returned
  simp only [reduceCtorEq, if_true, if_false, Nat.add_zero] at hwaiting hwoken hreturned
  have hsignalled := h.signalled
  refine ⟨?_, ?_, h.made, h.wakeUps⟩
  · show s.numH = atPoint (Function.update s.hydrogen i .returned) .waiting
    rw [hwaiting]
    exact h.numH
  · show atPoint (Function.update s.hydrogen i .returned) .woken +
      atPoint (Function.update s.hydrogen i .returned) .returned = 2 * s.water
    omega

/-- An oxygen outside or woken goes through the test of its loop: it waits for hydrogens, or it
takes two, makes water and wakes them. -/
theorem Balanced.loopO (h : Balanced s) (hj : s.oxygen j = .outside ∨ s.oxygen j = .woken)
    {first second : Option ι} (hstep : reactionOLoop s j first second = some t) : Balanced t := by
  have hnumH := h.numH
  have hsignalled := h.signalled
  have hmade := h.made
  have hwakeUps := h.wakeUps
  have hjwaiting : s.oxygen j ≠ .waiting := by
    rcases hj with hj | hj <;> simp [hj]
  have hjreturned : s.oxygen j ≠ .returned := by
    rcases hj with hj | hj <;> simp [hj]
  unfold reactionOLoop at hstep
  split at hstep
  · -- it goes to sleep, with at most one hydrogen there
    rename_i hfew
    obtain rfl := Option.some.inj hstep
    have hj' : s.oxygen j = s.oxygen j := rfl
    have hreturned := atPoint_update hj' .waiting .returned
    simp only [hjreturned, reduceCtorEq, if_false, Nat.add_zero] at hreturned
    refine ⟨hnumH, hsignalled, ?_, fun _ => ?_⟩
    · show atPoint (Function.update s.oxygen j .waiting) .returned = s.water
      omega
    · show s.numH ≤ 2 * (atPoint (Function.update s.oxygen j .waiting) .woken : Int) + 1
      omega
  · -- it makes water and both signals find a hydrogen
    rename_i henough
    obtain ⟨hydrogen₁, hfirst, hstep⟩ := Option.bind_eq_some_iff.mp hstep
    obtain ⟨hydrogen₂, hsecond, hstep⟩ := Option.bind_eq_some_iff.mp hstep
    obtain rfl := Option.some.inj hstep
    have hcounts₁ := signalAtom_counts hfirst
    have hcounts₂ := signalAtom_counts hsecond
    have hj' : s.oxygen j = s.oxygen j := rfl
    have hmove := fun q => atPoint_update hj' .returned q
    have hwaiting := hmove .waiting
    have hreturned := hmove .returned
    have hwoken := hmove .woken
    simp only [hjwaiting, reduceCtorEq, if_false, Nat.add_zero] at hwaiting
    simp only [hjreturned, if_true, if_false, Nat.add_zero] at hreturned
    simp only [reduceCtorEq, if_false, Nat.add_zero] at hwoken
    -- With two hydrogens waiting neither signal is lost.
    rcases hcounts₁ with ⟨hnone, _⟩ | ⟨hwaiting₁, hwoken₁, _, hreturned₁⟩
    · omega
    rcases hcounts₂ with ⟨hnone, _⟩ | ⟨hwaiting₂, hwoken₂, _, hreturned₂⟩
    · omega
    refine ⟨?_, ?_, ?_, fun hne => ?_⟩
    · show s.numH - 2 = atPoint hydrogen₂ .waiting
      omega
    · show atPoint hydrogen₂ .woken + atPoint hydrogen₂ .returned = 2 * (s.water + 1)
      omega
    · show atPoint (Function.update s.oxygen j .returned) .returned = s.water + 1
      omega
    -- The oxygen that ran may have been the one woken, which costs the bound at most one.
    · have hbound := hwakeUps (hwaiting ▸ hne)
      have hold : atPoint s.oxygen .woken ≤
          atPoint (Function.update s.oxygen j .returned) .woken + 1 := by
        split at hwoken <;> omega
      show s.numH - 2 ≤ 2 * (atPoint (Function.update s.oxygen j .returned) .woken : Int) + 1
      omega

/-- Every step keeps the invariant. -/
theorem Balanced.next (h : Balanced s) {a : ReactionStep ι κ} (hstep : reactionNext s a = some t) :
    Balanced t := by
  cases a with
  | enterH i choice =>
    obtain ⟨hi, hstep⟩ := Option.ite_none_right_eq_some.mp hstep
    exact h.enterH hi hstep
  | returnH i =>
    obtain ⟨hi, hstep⟩ := Option.ite_none_right_eq_some.mp hstep
    obtain rfl := Option.some.inj hstep
    exact h.returnH hi
  | enterO j first second =>
    obtain ⟨hj, hstep⟩ := Option.ite_none_right_eq_some.mp hstep
    have hcounted : Balanced { s with numO := s.numO + 1 } :=
      ⟨h.numH, h.signalled, h.made, h.wakeUps⟩
    exact hcounted.loopO (Or.inl hj) hstep
  | resumeO j first second =>
    obtain ⟨hj, hstep⟩ := Option.ite_none_right_eq_some.mp hstep
    exact h.loopO (Or.inr hj) hstep

/-- The invariant holds in every reachable state. -/
theorem balanced_reachable (h : (reactionSystem ι κ).Reachable s) : Balanced s := by
  refine h.invariant ?_ ?_
  · intro s hs
    subst hs
    exact balanced_init
  · intro s a t hs hstep
    exact hs.next hstep

/-! ## When no thread can go on -/

/-- No thread can take a step. -/
def Stuck (s : Reaction ι κ) : Prop := ∀ a, reactionNext s a = none

/-- A thread in front of its locked section can go on: some choice for its signal fits. -/
theorem exists_enterH (hi : s.hydrogen i = .outside) : ∃ a t, reactionNext s a = some t := by
  obtain ⟨choice, oxygen, hsignal⟩ :=
    exists_signal (fun pc => decide (pc = AtomPc.waiting)) (fun _ => .woken) s.oxygen
  have hstep : reactionH s i choice = some { s with
      numH := s.numH + 1, oxygen := oxygen
      hydrogen := Function.update s.hydrogen i .waiting } :=
    Option.bind_eq_some_iff.mpr ⟨oxygen, hsignal, rfl⟩
  exact ⟨.enterH i choice, _, (if_pos hi).trans hstep⟩

omit [Fintype κ] in
/-- An oxygen at its test can always go on. -/
theorem exists_loopO (s : Reaction ι κ) (j : κ) :
    ∃ first second t, reactionOLoop s j first second = some t := by
  unfold reactionOLoop
  split
  · exact ⟨none, none, _, rfl⟩
  · -- a signal always has a choice
    obtain ⟨first, hydrogen₁, hfirst⟩ :=
      exists_signal (fun pc => decide (pc = AtomPc.waiting)) (fun _ => .woken) s.hydrogen
    obtain ⟨second, hydrogen₂, hsecond⟩ :=
      exists_signal (fun pc => decide (pc = AtomPc.waiting)) (fun _ => .woken) hydrogen₁
    exact ⟨first, second, _, Option.bind_eq_some_iff.mpr ⟨hydrogen₁, hfirst,
      Option.bind_eq_some_iff.mpr ⟨hydrogen₂, hsecond, rfl⟩⟩⟩

/-- Where nobody can go on all threads have returned or wait for a signal. -/
theorem Stuck.quiet (h : Stuck s) :
    atPoint s.hydrogen .outside = 0 ∧ atPoint s.hydrogen .woken = 0 ∧
      atPoint s.oxygen .outside = 0 ∧ atPoint s.oxygen .woken = 0 := by
  simp only [atPoint_eq_zero]
  refine ⟨fun i hi => ?_, fun i hi => ?_, fun j hj => ?_, fun j hj => ?_⟩
  · obtain ⟨a, t, hstep⟩ := exists_enterH hi
    rw [h a] at hstep
    cases hstep
  · have hnone := h (.returnH i)
    rw [reactionNext, if_pos hi] at hnone
    cases hnone
  · obtain ⟨first, second, t, hloop⟩ := exists_loopO { s with numO := s.numO + 1 } j
    have hnone := h (.enterO j first second)
    rw [reactionNext, if_pos hj, hloop] at hnone
    cases hnone
  · obtain ⟨first, second, t, hloop⟩ := exists_loopO s j
    have hnone := h (.resumeO j first second)
    rw [reactionNext, if_pos hj, hloop] at hnone
    cases hnone

/-- Then all the water there can be has been made: one for every two hydrogens or one for every
oxygen, whichever are fewer. -/
theorem Balanced.stuck (h : Balanced s) (hstuck : Stuck s) :
    s.water = min (Fintype.card ι / 2) (Fintype.card κ) ∧
      atPoint s.hydrogen .returned = 2 * s.water ∧ atPoint s.oxygen .returned = s.water := by
  obtain ⟨hHoutside, hHwoken, hOoutside, hOwoken⟩ := hstuck.quiet
  have hnumH := h.numH
  have hsignalled := h.signalled
  have hmade := h.made
  have hwakeUps := h.wakeUps
  have hH := outside_add_entered s.hydrogen
  have hO := outside_add_entered s.oxygen
  rw [entered_eq, signalled_eq] at hH hO
  refine ⟨?_, by omega, hmade⟩
  -- either no oxygen waits, or one does and fewer than two hydrogens are left
  by_cases hwaiting : atPoint s.oxygen .waiting = 0
  · omega
  · have hfew := hwakeUps hwaiting
    omega

/-- **The reaction is balanced.** In every reachable state each water has used up two hydrogens that
were signalled and one oxygen; where nobody can go on all the water there can be is made. -/
theorem reaction_balanced (h : (reactionSystem ι κ).Reachable s) :
    (s.numH = (entered s.hydrogen : Int) - 2 * s.water ∧ 0 ≤ s.numH) ∧
      signalled s.hydrogen = 2 * s.water ∧ atPoint s.oxygen .returned = s.water ∧
      (Stuck s → s.water = min (Fintype.card ι / 2) (Fintype.card κ) ∧
        atPoint s.hydrogen .returned = 2 * s.water ∧ atPoint s.oxygen .returned = s.water) := by
  have hbalanced := balanced_reachable h
  have hnumH := hbalanced.numH
  have hsignalled := hbalanced.signalled
  rw [entered_eq, signalled_eq]
  exact ⟨by omega, hsignalled, hbalanced.made, hbalanced.stuck⟩

end Model

/-- Two hydrogens and an oxygen make one water. -/
theorem reaction_balanced_water :
    ∃ s, (reactionSystem (Fin 2) (Fin 1)).Reachable s ∧ signalled s.hydrogen = 2 * s.water ∧
      s.water = 1 := by
  let steps : List (ReactionStep (Fin 2) (Fin 1)) :=
    [.enterO 0 none none, .enterH 0 (some 0), .resumeO 0 none none, .enterH 1 (some 0),
      .resumeO 0 (some 1) (some 0)]
  have hwater : (steps.foldlM reactionNext reactionInit).any (fun s => s.water = 1) = true := by
    decide
  rw [Option.any_eq_true] at hwater
  obtain ⟨s, hs, hmade⟩ := hwater
  have hreach : (reactionSystem (Fin 2) (Fin 1)).Reachable s := ⟨_, _, rfl, Lts.run_ofFun.mpr hs⟩
  exact ⟨s, hreach, (reaction_balanced hreach).2.1, by simpa using hmade⟩

end OsLab.Threads
