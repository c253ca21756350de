import Mathlib.Data.List.Basic

/-!
# Labelled transition systems

Runs, reachable states and invariants of a system that takes labelled steps. The label of a step
carries whatever the step may choose, so most systems here are partial functions from a state and a
label to the next state (`Lts.ofFun`), and their concrete runs can be evaluated.

* **`Lts.Run`**, **`Lts.Reachable`** -- runs with their labels, and the states that runs from an
  initial state lead to.
* **`Run.invariant`**, **`Reachable.invariant`** -- the induction over a run, made once: what every
  step preserves, every run and every reachable state has.
* **`Reachable.refines`**, **`Run.refines`** -- a system refines another one through a function of
  its states, step by step or with several steps for one.
* **`Lts.restrict`** -- keeps the steps that meet a condition; its runs are the runs "all of whose
  steps meet the condition".
* **`run_ofFun`** -- the runs of a partial function are the folds of its labels, which `decide` can
  evaluate.
-/

namespace OsLab

universe u v

/-- A labelled transition system. -/
structure Lts (σ : Type u) (α : Type v) where
  init : σ → Prop
  step : σ → α → σ → Prop

namespace Lts

variable {σ : Type u} {α : Type v} {M : Lts σ α}

/-- `M.Run s as t`: from `s`, steps labelled `as` lead to `t`. -/
inductive Run (M : Lts σ α) (s : σ) : List α → σ → Prop where
  | nil : Run M s [] s
  | snoc {as : List α} {t u : σ} {a : α} (run : Run M s as t) (last : M.step t a u) :
      Run M s (as ++ [a]) u

/-- A run can be continued by a run from where it ends. -/
theorem Run.append {s t u : σ} {as bs : List α} (h : M.Run s as t) (h' : M.Run t bs u) :
    M.Run s (as ++ bs) u := by
  induction h' with
  | nil => simpa using h
  | snoc _ last ih =>
    rw [← List.append_assoc]
    exact .snoc ih last

/-- A step in front of a run is a run. -/
theorem Run.cons {s t u : σ} {a : α} {as : List α} (h : M.step s a t) (h' : M.Run t as u) :
    M.Run s (a :: as) u :=
  Run.append (.snoc .nil h) h'

/-- A run without steps stays where it is. -/
theorem run_nil {s t : σ} : M.Run s [] t ↔ s = t := by
  constructor
  · generalize has : ([] : List α) = as
    intro h
    cases h with
    | nil => rfl
    | snoc run last => exact absurd has.symm (by simp)
  · rintro rfl
    exact .nil

/-- A run with a first label takes that step and then runs on. -/
theorem run_cons {s u : σ} {a : α} {as : List α} :
    M.Run s (a :: as) u ↔ ∃ t, M.step s a t ∧ M.Run t as u := by
  constructor
  · generalize has : a :: as = bs
    intro h
    induction h generalizing as with
    | nil => cases has
    | @snoc bs t u b run last ih =>
      cases bs with
      | nil =>
        obtain ⟨rfl, rfl⟩ : a = b ∧ as = [] := by simpa using has
        obtain rfl := run_nil.mp run
        exact ⟨u, last, .nil⟩
      | cons c bs =>
        obtain ⟨rfl, rfl⟩ : a = c ∧ as = bs ++ [b] := by simpa using has
        obtain ⟨t', hstep, hrun⟩ := ih rfl
        exact ⟨t', hstep, .snoc hrun last⟩
  · rintro ⟨t, hstep, hrun⟩
    exact .cons hstep hrun

/-- A run over two lists of labels passes through a state between them. -/
theorem Run.split {s u : σ} {as bs : List α} (h : M.Run s (as ++ bs) u) :
    ∃ t, M.Run s as t ∧ M.Run t bs u := by
  induction as generalizing s with
  | nil => exact ⟨s, .nil, h⟩
  | cons a as ih =>
    obtain ⟨t, hstep, hrun⟩ := run_cons.mp h
    obtain ⟨t', hleft, hright⟩ := ih hrun
    exact ⟨t', .cons hstep hleft, hright⟩

/-- What every step preserves, every run preserves. By induction on the run. -/
theorem Run.invariant {I : σ → Prop} (hstep : ∀ s a t, I s → M.step s a t → I t)
    {s t : σ} {as : List α} (h : M.Run s as t) (hs : I s) : I t := by
  induction h with
  | nil => exact hs
  | snoc _ last ih => exact hstep _ _ _ ih last

/-- The states runs from an initial state lead to. -/
def Reachable (M : Lts σ α) (t : σ) : Prop := ∃ s as, M.init s ∧ M.Run s as t

/-- Initial states are reachable. -/
theorem Reachable.of_init {s : σ} (h : M.init s) : M.Reachable s := ⟨s, [], h, .nil⟩

/-- A step from a reachable state leads to a reachable state. -/
theorem Reachable.step {s t : σ} {a : α} (h : M.Reachable s) (h' : M.step s a t) :
    M.Reachable t := by
  obtain ⟨s₀, as, hinit, hrun⟩ := h
  exact ⟨s₀, as ++ [a], hinit, .snoc hrun h'⟩

/-- A run from a reachable state leads to a reachable state. -/
theorem Reachable.run {s t : σ} {as : List α} (h : M.Reachable s) (h' : M.Run s as t) :
    M.Reachable t := by
  obtain ⟨s₀, bs, hinit, hrun⟩ := h
  exact ⟨s₀, bs ++ as, hinit, hrun.append h'⟩

/-- An invariant that holds initially and is preserved by every step holds in every reachable
state. -/
theorem Reachable.invariant {I : σ → Prop} (hinit : ∀ s, M.init s → I s)
    (hstep : ∀ s a t, I s → M.step s a t → I t) {t : σ} (h : M.Reachable t) : I t := by
  obtain ⟨s, as, hs, hrun⟩ := h
  exact hrun.invariant hstep (hinit s hs)

/-- A system refines another one if each of its steps is, through `f`, a step of the other. -/
theorem Reachable.refines {τ : Type*} {β : Type*} {N : Lts τ β} {f : σ → τ}
    (hinit : ∀ s, M.init s → N.init (f s))
    (hstep : ∀ s a t, M.Reachable s → M.step s a t → ∃ b, N.step (f s) b (f t)) {t : σ}
    (h : M.Reachable t) : N.Reachable (f t) := by
  obtain ⟨s, as, hs, hrun⟩ := h
  induction hrun with
  | nil => exact .of_init (hinit s hs)
  | snoc run last ih =>
    obtain ⟨b, hb⟩ := hstep _ _ _ ⟨s, _, hs, run⟩ last
    exact ih.step hb

/-- If each step is, through `f`, a run of another system with the labels `e` gives, so is each
run. -/
theorem Run.refines {τ : Type*} {β : Type*} {N : Lts τ β} {f : σ → τ} {e : α → List β}
    (hstep : ∀ s a t, M.Reachable s → M.step s a t → N.Run (f s) (e a) (f t)) {s t : σ}
    {as : List α} (hs : M.Reachable s) (h : M.Run s as t) : N.Run (f s) (as.flatMap e) (f t) := by
  induction h with
  | nil => exact .nil
  | snoc run last ih =>
    rw [List.flatMap_append, List.flatMap_singleton]
    exact ih.append (hstep _ _ _ (hs.run run) last)

/-! ## Steps that meet a condition -/

/-- The steps of `M` whose state and label satisfy `P`. -/
def restrict (M : Lts σ α) (P : σ → α → Prop) : Lts σ α where
  init := M.init
  step s a t := P s a ∧ M.step s a t

/-- A run whose steps all meet the condition is a run. -/
theorem Run.of_restrict {P : σ → α → Prop} {s t : σ} {as : List α}
    (h : (M.restrict P).Run s as t) : M.Run s as t := by
  induction h with
  | nil => exact .nil
  | snoc _ last ih => exact .snoc ih last.2

/-- A run whose labels meet the condition in every state is a run of the restricted system. -/
theorem Run.restrict {P : σ → α → Prop} {s t : σ} {as : List α} (h : M.Run s as t)
    (hP : ∀ a ∈ as, ∀ s, P s a) : (M.restrict P).Run s as t := by
  induction h with
  | nil => exact .nil
  | snoc _ last ih =>
    rw [List.forall_mem_append] at hP
    exact .snoc (ih hP.1) ⟨hP.2 _ (List.mem_singleton_self _) _, last⟩

/-- What restricted runs reach can be reached. -/
theorem Reachable.of_restrict {P : σ → α → Prop} {t : σ} (h : (M.restrict P).Reachable t) :
    M.Reachable t := by
  obtain ⟨s, as, hinit, hrun⟩ := h
  exact ⟨s, as, hinit, hrun.of_restrict⟩

/-! ## Systems given by a function -/

/-- The system whose steps a partial function computes. -/
def ofFun (init : σ → Prop) (next : σ → α → Option σ) : Lts σ α where
  init := init
  step s a t := next s a = some t

/-- The runs of a partial function are the folds of their labels, so that a concrete run is checked
by evaluation. -/
theorem run_ofFun {init : σ → Prop} {next : σ → α → Option σ} {s t : σ} {as : List α} :
    (ofFun init next).Run s as t ↔ as.foldlM next s = some t := by
  induction as generalizing s with
  | nil => simp [run_nil]
  | cons a as ih =>
    rw [run_cons, List.foldlM_cons, Option.bind_eq_bind, Option.bind_eq_some_iff]
    simp only [ih]
    rfl

/-- A partial function has one run for each list of labels. -/
theorem Run.unique_ofFun {init : σ → Prop} {next : σ → α → Option σ} {s t u : σ} {as : List α}
    (h : (ofFun init next).Run s as t) (h' : (ofFun init next).Run s as u) : t = u :=
  Option.some.inj ((run_ofFun.mp h).symm.trans (run_ofFun.mp h'))

end Lts

end OsLab
