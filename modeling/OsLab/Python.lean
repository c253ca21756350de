import Mathlib.Data.List.Basic
import Mathlib.Data.List.Induction

/-!
# What the Python simulators take from Python

The simulators stop on a failed `assert`, on an exception or by `exit(1)`; every modelled function
that can stop returns in `Except Abort`.

* **`Abort`**, **`assert`** -- the ways to stop. `bind_eq_ok` takes a sequence that did not stop
  apart, and is how most proofs about the simulators begin.
* **`range`**, **`index`**, **`item`**, **`setItem`** -- ranges and list accesses, with indices that
  may be negative and the error of an index that is out of range.
* **`foldlM_eq_ok`**, **`foldlM_induction`**, **`forM_eq_ok`** -- loops. A loop none of whose rounds
  stops the program is a fold, and has what each round preserves.
* **`Str`**, **`split`** -- strings as lists of characters.
-/

namespace OsLab

/-- The ways a simulator stops. A failed assertion carries the text of its condition. -/
inductive Abort
  | assertionError (condition : String)
  | indexError
  | keyError
  | typeError
  | valueError
  | zeroDivisionError
  | exit
  deriving DecidableEq, Repr

/-- A sequence that does not stop is made of two parts that do not stop. -/
theorem bind_eq_ok {α β : Type} {x : Except Abort α} {f : α → Except Abort β} {r : β} :
    x >>= f = .ok r ↔ ∃ a, x = .ok a ∧ f a = .ok r := by
  cases x with
  | error e => simp [bind, Except.bind]
  | ok a => simp [bind, Except.bind]

/-- Python's `assert`. -/
def assert (condition : Bool) (text : String) : Except Abort Unit :=
  if condition then .ok () else .error (.assertionError text)

@[simp] theorem assert_true (text : String) : assert true text = .ok () := rfl

@[simp] theorem assert_false (text : String) :
    assert false text = .error (.assertionError text) := rfl

/-- An assertion passes exactly when its condition holds. -/
@[simp] theorem assert_eq_ok {condition : Bool} {text : String} {u : Unit} :
    assert condition text = .ok u ↔ condition = true := by
  cases condition <;> simp

/-- Python's `range(a, b)`. -/
def range (a b : Nat) : List Nat := List.range' a (b - a)

@[simp] theorem mem_range {a b x : Nat} : x ∈ range a b ↔ a ≤ x ∧ x < b := by
  simp only [range, List.mem_range'_1]
  omega

@[simp] theorem range_self (a : Nat) : range a a = [] := by simp [range]

/-- A range holds each number once. -/
theorem nodup_range (a b : Nat) : (range a b).Nodup := List.nodup_range'

/-- Ranges that meet are one range. -/
theorem range_append {a b c : Nat} (hab : a ≤ b) (hbc : b ≤ c) :
    range a b ++ range b c = range a c := by
  unfold range
  have hlen : c - a = (b - a) + (c - b) := by omega
  have hstart : b = a + (b - a) := by omega
  rw [hlen, ← List.range'_append_1, ← hstart]

/-- A range that is not empty starts with its lower end. -/
theorem range_eq_cons {a b : Nat} (hab : a < b) : range a b = a :: range (a + 1) b := by
  unfold range
  have hlen : b - a = (b - (a + 1)) + 1 := by omega
  rw [hlen, List.range'_succ]

/-! ## Lists -/

section Index

variable {α : Type*} {xs : List α}

/-- The position an index stands for; `none` is the index -1, the last element. -/
def position (xs : List α) : Option Nat → Nat
  | some i => i
  | none => xs.length - 1

/-- `xs[i]` -/
def index (xs : List α) (i : Option Nat) : Except Abort α :=
  match xs[position xs i]? with
  | some x => .ok x
  | none => .error .indexError

/-- An access in range reads the element there, and only such an access succeeds. -/
@[simp] theorem index_some_eq_ok {i : Nat} {x : α} :
    index xs (some i) = .ok x ↔ xs[i]? = some x := by
  cases h : xs[i]? <;> simp [index, position, h]

end Index

section Item

variable {α : Type*} {xs : List α}

/-- The position an integer stands for in a list of length `n`; a negative one counts from the
end. -/
def place (n : Nat) (i : Int) : Option Nat :=
  let k := if i < 0 then i + n else i
  if 0 ≤ k ∧ k < n then some k.toNat else none

/-- An index that is not negative stands for itself inside the list. -/
theorem place_natCast {n i : Nat} (h : i < n) : place n i = some i := by
  unfold place
  have hnonneg : ¬((i : Int) < 0) := by omega
  have hlt : (0 : Int) ≤ i ∧ (i : Int) < n := by omega
  simp [hnonneg, hlt]

/-- An index behind the end stands for nothing. -/
theorem place_natCast_ge {n i : Nat} (h : n ≤ i) : place n i = none := by
  unfold place
  have hnonneg : ¬((i : Int) < 0) := by omega
  have hge : ¬((0 : Int) ≤ i ∧ (i : Int) < n) := by omega
  simp only [hnonneg, if_false, hge]

/-- `xs[i]` for an integer `i` -/
def item (xs : List α) (i : Int) : Except Abort α :=
  match (place xs.length i).bind (xs[·]?) with
  | some x => .ok x
  | none => .error .indexError

/-- `xs[i] = x` for an integer `i` -/
def setItem (xs : List α) (i : Int) (x : α) : Except Abort (List α) :=
  match place xs.length i with
  | some k => .ok (xs.set k x)
  | none => .error .indexError

/-- Reading at an index that is not negative is reading there. -/
theorem item_natCast_eq_ok {i : Nat} {x : α} : item xs i = .ok x ↔ xs[i]? = some x := by
  unfold item
  by_cases hi : i < xs.length
  · rw [place_natCast hi, Option.bind_some, List.getElem?_eq_getElem hi]
    simp
  · rw [place_natCast_ge (by omega), List.getElem?_eq_none (by omega)]
    simp

/-- Writing at an index inside the list writes there. -/
theorem setItem_natCast {i : Nat} (hi : i < xs.length) (x : α) :
    setItem xs i x = .ok (xs.set i x) := by
  unfold setItem
  rw [place_natCast hi]

end Item

/-! ## Loops -/

section Loops

variable {ι β : Type}

/-- A loop none of whose rounds stops the program is a fold. -/
theorem foldlM_eq_ok {step : β → ι → Except Abort β} {pure' : β → ι → β} {xs : List ι}
    (h : ∀ x ∈ xs, ∀ acc, step acc x = .ok (pure' acc x)) (acc : β) :
    xs.foldlM step acc = .ok (xs.foldl pure' acc) := by
  induction xs generalizing acc with
  | nil => rfl
  | cons x xs ih =>
    rw [List.forall_mem_cons] at h
    rw [List.foldlM_cons, h.1 acc]
    exact ih h.2 (pure' acc x)

/-- The rule for a loop: each round keeps a property of the elements done so far, and none stops the
program. -/
theorem foldlM_induction {step : β → ι → Except Abort β} {xs : List ι} {P : List ι → β → Prop}
    {acc : β} (hstart : P [] acc)
    (hround : ∀ done x rest acc, xs = done ++ x :: rest → P done acc →
      ∃ next, step acc x = .ok next ∧ P (done ++ [x]) next) :
    ∃ r, xs.foldlM step acc = .ok r ∧ P xs r := by
  have hall : ∀ done rest acc, xs = done ++ rest → P done acc →
      ∃ r, rest.foldlM step acc = .ok r ∧ P xs r := by
    intro done rest
    induction rest generalizing done with
    | nil =>
      intro acc hxs hacc
      rw [List.append_nil] at hxs
      exact ⟨acc, rfl, hxs ▸ hacc⟩
    | cons x rest ih =>
      intro acc hxs hacc
      obtain ⟨next, hnext, hdone⟩ := hround done x rest acc hxs hacc
      obtain ⟨r, hr, hP⟩ := ih (done ++ [x]) next (by simp [hxs]) hdone
      refine ⟨r, ?_, hP⟩
      rw [List.foldlM_cons, hnext]
      exact hr
  exact hall [] xs acc rfl hstart

/-- A loop over the indices of a list is a fold over its elements. -/
theorem foldlM_range_eq_ok {body : β → Nat → Except Abort β} {step : β → ι → β} {xs : List ι}
    (h : ∀ i x, xs[i]? = some x → ∀ acc, body acc i = .ok (step acc x)) (acc : β) :
    (List.range xs.length).foldlM body acc = .ok (xs.foldl step acc) := by
  induction xs using List.reverseRecOn with
  | nil => rfl
  | append_singleton xs x ih =>
    have hinit : ∀ i y, xs[i]? = some y → ∀ acc, body acc i = .ok (step acc y) := by
      intro i y hi
      obtain ⟨hlt, _⟩ := List.getElem?_eq_some_iff.mp hi
      exact h i y (by rw [List.getElem?_append_left hlt, hi])
    have hlast : ∀ acc, body acc xs.length = .ok (step acc x) := h xs.length x (by simp)
    rw [List.length_append, List.length_singleton, List.range_succ, List.foldlM_append, ih hinit,
      List.foldl_append]
    show (body (xs.foldl step acc) xs.length >>= fun acc => pure acc) = _
    rw [hlast]
    rfl

/-- A counting loop counts the elements with the property on top of its start. -/
theorem foldl_count {p : ι → Bool} {xs : List ι} (n : Nat) :
    xs.foldl (fun n x => if p x then n + 1 else n) n = n + xs.countP p := by
  induction xs generalizing n with
  | nil => rfl
  | cons x xs ih =>
    rw [List.foldl_cons, ih, List.countP_cons]
    split <;> omega

/-- A loop without a result none of whose rounds stops the program does not stop it either. -/
theorem forM_eq_ok {body : ι → Except Abort Unit} {xs : List ι} (h : ∀ x ∈ xs, body x = .ok ()) :
    xs.forM body = .ok () := by
  induction xs with
  | nil => rfl
  | cons x xs ih =>
    rw [List.forall_mem_cons] at h
    show (body x >>= fun _ => xs.forM body) = _
    rw [h.1]
    exact ih h.2

/-- A search none of whose tests stops the program is `find?` with the results of the tests. -/
theorem findM?_eq_ok {test : ι → Except Abort Bool} {pure' : ι → Bool} {xs : List ι}
    (h : ∀ x ∈ xs, test x = .ok (pure' x)) : xs.findM? test = .ok (xs.find? pure') := by
  induction xs with
  | nil => rfl
  | cons x xs ih =>
    rw [List.forall_mem_cons] at h
    rw [List.findM?, h.1]
    cases hx : pure' x with
    | true => simp [hx, bind, Except.bind, pure, Except.pure]
    | false =>
      rw [List.find?_cons_of_neg (by simp [hx])]
      exact ih h.2

end Loops

/-! ## Strings -/

/-- A `str`. -/
abbrev Str := List Char

/-- Two strings are equal if `==` says so. -/
instance : LawfulBEq Str := inferInstance

/-- `s.split(sep)` for a separator of one character. -/
def split (s : Str) (sep : Char) : List Str := s.splitOn sep

end OsLab
