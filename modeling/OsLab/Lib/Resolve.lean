import Mathlib.Data.List.DropRight
import Mathlib.Data.List.Infix

/-!
# Resolving paths

A directory is the list of the names that lead to it from the root. A path of names and steps up is
resolved component by component, without links; reduced, it is some steps up with names behind them.

* **`resolve`** -- where a path leads from a directory. The root is above itself.
* **`reduce`**, **`resolve_eq`** -- every path leads where its reduced form leads, from any
  directory.
* **`prefix_resolve_iff`** -- when a path stays inside a directory. A path without steps up always
  does, `prefix_resolve`.
-/

namespace OsLab.Resolve

variable {α : Type*}

inductive Component (α : Type*) where
  | up
  | name (n : α)
  deriving DecidableEq

/-- The root is above itself. -/
def step (dir : List α) : Component α → List α
  | .up => dir.dropLast
  | .name n => dir ++ [n]

def resolve (dir : List α) (path : List (Component α)) : List α := path.foldl step dir

/-- Steps up and then names. -/
structure Reduced (α : Type*) where
  ups : Nat
  names : List α
  deriving DecidableEq

def reduceStep (r : Reduced α) : Component α → Reduced α
  | .up =>
    match r.names with
    | [] => { r with ups := r.ups + 1 }
    | _ :: _ => { r with names := r.names.dropLast }
  | .name n => { r with names := r.names ++ [n] }

/-- A step up cancels the name in front of it. -/
def reduce (path : List (Component α)) : Reduced α := path.foldl reduceStep ⟨0, []⟩

def Reduced.apply (r : Reduced α) (dir : List α) : List α := dir.rdrop r.ups ++ r.names

theorem rdrop_one (dir : List α) : dir.rdrop 1 = dir.dropLast := List.dropLast_eq_take.symm

/-- Reducing one component further is taking it: a step up cancels the last name, or is one more
step up when there is none. -/
theorem reduceStep_apply (r : Reduced α) (c : Component α) (dir : List α) :
    (reduceStep r c).apply dir = step (r.apply dir) c := by
  cases c with
  | name n => exact (List.append_assoc _ _ _).symm
  | up =>
    obtain ⟨ups, names⟩ := r
    cases names with
    | nil =>
      show dir.rdrop (ups + 1) ++ [] = (dir.rdrop ups ++ []).dropLast
      rw [List.append_nil, List.append_nil, ← rdrop_one, List.rdrop_add]
    | cons n names => exact (List.dropLast_append_of_ne_nil (List.cons_ne_nil n names)).symm

/-- Reducing a path on top of what is reduced already is resolving it from there. By induction on
the path. -/
theorem foldl_reduceStep_apply (r : Reduced α) (path : List (Component α)) (dir : List α) :
    (path.foldl reduceStep r).apply dir = path.foldl step (r.apply dir) := by
  induction path generalizing r with
  | nil => rfl
  | cons c path ih => rw [List.foldl_cons, List.foldl_cons, ih, reduceStep_apply]

/-- Resolving a path is taking its reduced form, from whatever directory. -/
theorem resolve_eq (dir : List α) (path : List (Component α)) :
    resolve dir path = (reduce path).apply dir := by
  unfold reduce
  rw [foldl_reduceStep_apply]
  show path.foldl step dir = path.foldl step (dir.rdrop 0 ++ [])
  rw [List.rdrop_zero, List.append_nil]

/-- A path stays in a directory when the names behind its steps up lead back: what the steps up
leave has to be made up for by the first names. -/
theorem prefix_resolve_iff {dir : List α} {path : List (Component α)} :
    dir <+: resolve dir path ↔ dir.rtake (reduce path).ups <+: (reduce path).names := by
  have hsplit : dir.rdrop (reduce path).ups ++ dir.rtake (reduce path).ups = dir :=
    List.take_append_drop _ dir
  rw [resolve_eq]
  unfold Reduced.apply
  nth_rewrite 1 [← hsplit]
  exact List.prefix_append_right_inj _

/-- Nothing leads out of a directory without a step up. -/
theorem prefix_resolve {path : List (Component α)} (h : (reduce path).ups = 0) (dir : List α) :
    dir <+: resolve dir path := by
  rw [prefix_resolve_iff, h, List.rtake_zero]
  exact List.nil_prefix

end OsLab.Resolve
