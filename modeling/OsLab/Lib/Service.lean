import Mathlib.Data.List.Basic

/-!
# Services

A service answers one request at a time and moves on to its next state; it may also refuse.
`Refines` compares two of them by what they answer: where the abstract service answers a request, so
does the other, with the same answer, and the two states stay related. `Refines.run` lifts this from
one request to lists of requests, so that a device is shown to be another one by looking at single
requests.
-/

namespace OsLab

universe u v w x

/-- A service with states in `σ`, requests in `ι` and answers in `ο`. -/
abbrev Service (σ : Type u) (ι : Type v) (ο : Type w) := σ → ι → Option (σ × ο)

namespace Service

variable {σ : Type u} {ι : Type v} {ο : Type w} {τ : Type x}

/-- All answers to a list of requests, and the state after the last one. -/
def run (M : Service σ ι ο) : σ → List ι → Option (σ × List ο)
  | s, [] => some (s, [])
  | s, i :: is =>
    match M s i with
    | none => none
    | some (s', o) => (M.run s' is).map fun r => (r.1, o :: r.2)

variable {M : Service σ ι ο} {N : Service τ ι ο}

@[simp] theorem run_nil (s : σ) : M.run s [] = some (s, []) := rfl

/-- When the first request is answered, its answer comes first and the others follow from the state
that it leaves. -/
theorem run_cons_of_some {s s' : σ} {i : ι} {o : ο} (h : M s i = some (s', o)) (is : List ι) :
    M.run s (i :: is) = (M.run s' is).map fun r => (r.1, o :: r.2) := by
  rw [run, h]

/-- A list of requests is answered exactly when the first one is and then the others are. -/
theorem run_cons_eq_some {s t : σ} {i : ι} {is : List ι} {os : List ο} :
    M.run s (i :: is) = some (t, os) ↔
      ∃ s' o os', M s i = some (s', o) ∧ M.run s' is = some (t, os') ∧ os = o :: os' := by
  cases h : M s i with
  | none => simp [run, h]
  | some r =>
    obtain ⟨s', o⟩ := r
    rw [run_cons_of_some h, Option.map_eq_some_iff]
    constructor
    · rintro ⟨⟨t', os'⟩, hrun, heq⟩
      cases heq
      exact ⟨s', o, os', rfl, hrun, rfl⟩
    · rintro ⟨s'', o', os', heq, hrun, rfl⟩
      cases heq
      exact ⟨(t, os'), hrun, rfl⟩

/-- On requests that satisfy `P`, `M` answers as `N` does in every pair of states related by `R`,
and the states stay related. -/
def Refines (M : Service σ ι ο) (N : Service τ ι ο) (P : ι → Prop) (R : σ → τ → Prop) : Prop :=
  ∀ s t i t' o, R s t → P i → N t i = some (t', o) → ∃ s', M s i = some (s', o) ∧ R s' t'

/-- Refinement lifts to runs: whatever list of requests the abstract service answers, the other one
answers alike. The induction is on the requests. -/
theorem Refines.run {P : ι → Prop} {R : σ → τ → Prop} (h : M.Refines N P R) {is : List ι}
    (his : ∀ i ∈ is, P i) {s : σ} {t t' : τ} {os : List ο} (hst : R s t)
    (hrun : N.run t is = some (t', os)) : ∃ s', M.run s is = some (s', os) ∧ R s' t' := by
  induction is generalizing s t os with
  | nil =>
    cases hrun
    exact ⟨s, rfl, hst⟩
  | cons i is ih =>
    rw [List.forall_mem_cons] at his
    obtain ⟨t₁, o, os', hN, hrest, rfl⟩ := run_cons_eq_some.mp hrun
    obtain ⟨s₁, hM, hst₁⟩ := h s t i t₁ o hst his.1 hN
    obtain ⟨s', hrun', hst'⟩ := ih his.2 hst₁ hrest
    exact ⟨s', run_cons_eq_some.mpr ⟨s₁, o, os', hM, hrun', rfl⟩, hst'⟩

/-- A service that answers everything answers every list of requests. -/
theorem exists_run (h : ∀ s i, ∃ r, M s i = some r) (s : σ) (is : List ι) :
    ∃ r, M.run s is = some r := by
  induction is generalizing s with
  | nil => exact ⟨_, rfl⟩
  | cons i is ih =>
    obtain ⟨⟨s', o⟩, hM⟩ := h s i
    obtain ⟨⟨t, os⟩, hrun⟩ := ih s'
    exact ⟨_, run_cons_eq_some.mpr ⟨s', o, os, hM, hrun, rfl⟩⟩

end Service

end OsLab
