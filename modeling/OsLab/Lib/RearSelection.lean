import Mathlib.Data.List.Perm.Basic
import Mathlib.Order.Lattice

/-!
# Selection sort by moving minima to the rear

A list is sorted in place by repeatedly taking the last minimal element among those not yet placed
and moving it to the rear. After `i` rounds the last `i` elements are in ascending order and none of
them is above an element in front of them.

* **`IsLastMin`**, **`moveToRear`** -- the two parts of a round. `snoc_of_le` and `snoc_of_not` are
  the rules for a scan that finds the element.
* **`Rounds`** -- `i` rounds as a relation between two lists, which is what a program that sorts
  like this is shown to do. It has one result, `Rounds.unique`.
* **`Rounds.sorted`**, **`Rounds.perm`** -- the result is the list in ascending order.
* **`Rounds.withKey_reverse`** -- the sort is not stable: it reverses the elements of each key.
  `Rounds.pairwise` draws the conclusion for a relation between elements of the same key.
* **`Rounds.lift`** -- marks on the elements, which the sort does not see, are moved with them.
-/

namespace OsLab.RearSelection

variable {α : Type*} {β : Type*} [LinearOrder β] (key : α → β)

/-- `m` is the last index up to `bound` at which the key is minimal. -/
structure IsLastMin (bound : Nat) (xs : List α) (m : Nat) : Prop where
  lt_length : m < xs.length
  le_bound : m ≤ bound
  minimal : ∀ j (hj : j < xs.length), j ≤ bound → key xs[m] ≤ key xs[j]
  last : ∀ j (hj : j < xs.length), m < j → j ≤ bound → key xs[m] < key xs[j]

/-- Move the element at index `m` to the rear. -/
def moveToRear (m : Nat) (xs : List α) : List α := xs.eraseIdx m ++ xs[m]?.toList

/-- The last `i` elements are in place. -/
def Placed (i : Nat) (xs : List α) : Prop :=
  ∃ pre suf, xs = pre ++ suf ∧ suf.length = i ∧ suf.Pairwise (fun a b => key a ≤ key b) ∧
    ∀ a ∈ pre, ∀ b ∈ suf, key b ≤ key a

section Scan

variable {key} {bound m : Nat} {xs : List α}

/-- The scan meets an element inside its bound that is not above the best so far: this one is the
last minimum now. -/
theorem IsLastMin.snoc_of_le (h : IsLastMin key bound xs m) {y : α}
    (hbound : xs.length ≤ bound) (hy : key y ≤ key (xs.get ⟨m, h.lt_length⟩)) :
    IsLastMin key bound (xs ++ [y]) xs.length where
  lt_length := by simp
  le_bound := hbound
  minimal j hj hjb := by
    rw [List.getElem_concat_length rfl]
    rcases Nat.lt_or_ge j xs.length with hlt | hge
    · rw [List.getElem_append_left hlt]
      exact le_trans hy (h.minimal j hlt hjb)
    · rw [List.getElem_append_right hge]
      simp
  last j hj hlt := by
    simp only [List.length_append, List.length_singleton] at hj
    omega

/-- The scan meets an element that is above the best so far, or outside its bound: the last minimum
stays. -/
theorem IsLastMin.snoc_of_not (h : IsLastMin key bound xs m) {y : α}
    (hy : ¬ (key y ≤ key (xs.get ⟨m, h.lt_length⟩) ∧ xs.length ≤ bound)) :
    IsLastMin key bound (xs ++ [y]) m where
  lt_length := by
    rw [List.length_append]
    exact Nat.lt_add_right _ h.lt_length
  le_bound := h.le_bound
  minimal j hj hjb := by
    rw [List.getElem_append_left h.lt_length]
    rcases Nat.lt_or_ge j xs.length with hlt | hge
    · rw [List.getElem_append_left hlt]
      exact h.minimal j hlt hjb
    · rw [List.getElem_append_right hge]
      simp only [List.getElem_singleton]
      exact le_of_lt (not_le.mp fun hle => hy ⟨hle, Nat.le_trans hge hjb⟩)
  last j hj hmj hjb := by
    rw [List.getElem_append_left h.lt_length]
    rcases Nat.lt_or_ge j xs.length with hlt | hge
    · rw [List.getElem_append_left hlt]
      exact h.last j hlt hmj hjb
    · rw [List.getElem_append_right hge]
      simp only [List.getElem_singleton]
      exact not_le.mp fun hle => hy ⟨hle, Nat.le_trans hge hjb⟩

/-- The first element of a scan is its minimum so far. -/
theorem isLastMin_singleton (y : α) : IsLastMin key bound [y] 0 where
  lt_length := by simp
  le_bound := Nat.zero_le _
  minimal j hj _ := by
    obtain rfl : j = 0 := by simpa using hj
    exact le_rfl
  last j hj hlt := by
    simp only [List.length_singleton] at hj
    omega

end Scan

/-! ## One round -/

/-- Moving a place inside the list takes its element out and puts it at the end. -/
theorem moveToRear_eq {m : Nat} {xs : List α} (h : m < xs.length) :
    moveToRear m xs = xs.eraseIdx m ++ [xs[m]] := by
  simp [moveToRear, h]

/-- A move changes the order of the elements only. -/
theorem perm_moveToRear (m : Nat) (xs : List α) : (moveToRear m xs).Perm xs := by
  rcases Nat.lt_or_ge m xs.length with hlt | hge
  · rw [moveToRear_eq hlt]
    refine List.perm_append_comm.trans ?_
    exact List.getElem_cons_eraseIdx_perm hlt
  · rw [moveToRear, List.eraseIdx_of_length_le hge, List.getElem?_eq_none hge]
    simp

variable {key}

/-- Before the first round nothing has to be in place. -/
theorem placed_zero (xs : List α) : Placed key 0 xs := ⟨xs, [], by simp, rfl, .nil, by simp⟩

/-- A round that moves the last minimum of the front part places one more element: it is not above
those in front, and not below those placed before it. -/
theorem Placed.moveToRear {i m : Nat} {xs : List α} (h : Placed key i xs) (hi : i < xs.length)
    (hm : IsLastMin key (xs.length - (i + 1)) xs m) : Placed key (i + 1) (moveToRear m xs) := by
  obtain ⟨pre, suf, rfl, rfl, hsorted, hbelow⟩ := h
  have hlen : (pre ++ suf).length = pre.length + suf.length := List.length_append
  have hle := hm.le_bound
  have hpre : m < pre.length := by omega
  have hlt : m < (pre ++ suf).length := hm.lt_length
  have hget : (pre ++ suf)[m] = pre[m] := List.getElem_append_left hpre
  refine ⟨pre.eraseIdx m, suf ++ [pre[m]], ?_, by simp, ?_, ?_⟩
  · rw [moveToRear_eq hlt, hget, List.eraseIdx_append_of_lt_length hpre, List.append_assoc]
  · rw [List.pairwise_append]
    refine ⟨hsorted, by simp, fun b hb a ha => ?_⟩
    rw [List.mem_singleton.mp ha]
    exact hbelow _ (List.getElem_mem hpre) b hb
  · intro a ha b hb
    have ha' : a ∈ pre := List.mem_of_mem_eraseIdx ha
    rcases List.mem_append.mp hb with hb | hb
    · exact hbelow a ha' b hb
    · obtain ⟨j, hj, rfl⟩ := List.getElem_of_mem ha'
      have hmin := hm.minimal j (by omega) (by omega)
      rw [hget, List.getElem_append_left hj] at hmin
      rwa [List.mem_singleton.mp hb]

/-- When all elements are placed, the list is in ascending order. -/
theorem Placed.pairwise {xs : List α} (h : Placed key xs.length xs) :
    xs.Pairwise (fun a b => key a ≤ key b) := by
  obtain ⟨pre, suf, hxs, hlen, hsorted, _⟩ := h
  obtain rfl : pre = [] := by
    have := congrArg List.length hxs
    rw [List.length_append] at this
    exact List.length_eq_zero_iff.mp (by omega)
  rwa [hxs]

/-! ## All rounds -/

/-- `ys` is what `i` rounds make of `xs`. -/
inductive Rounds (key : α → β) (xs : List α) : Nat → List α → Prop where
  | zero : Rounds key xs 0 xs
  | succ {i m : Nat} {ys : List α} (h : Rounds key xs i ys) (hi : i < xs.length)
      (hm : IsLastMin key (xs.length - (i + 1)) ys m) : Rounds key xs (i + 1) (moveToRear m ys)

variable {xs ys : List α} {i m : Nat}

/-- There is one last minimum. -/
theorem IsLastMin.unique {bound m' : Nat} (h : IsLastMin key bound xs m)
    (h' : IsLastMin key bound xs m') : m = m' := by
  rcases Nat.lt_trichotomy m m' with hlt | heq | hgt
  · exact absurd (h.last m' h'.lt_length hlt h'.le_bound)
      (not_lt_of_ge (h'.minimal m h.lt_length h.le_bound))
  · exact heq
  · exact absurd (h'.last m h.lt_length hgt h.le_bound)
      (not_lt_of_ge (h.minimal m' h'.lt_length h'.le_bound))

/-- The rounds have one result. -/
theorem Rounds.unique {zs : List α} (h : Rounds key xs i ys) (h' : Rounds key xs i zs) :
    ys = zs := by
  induction h generalizing zs with
  | zero =>
    cases h'
    rfl
  | succ h hi hm ih =>
    cases h' with
    | succ h' _ hm' =>
      obtain rfl := ih h'
      rw [hm.unique hm']

/-- The rounds change the order of the elements only. -/
theorem Rounds.perm (h : Rounds key xs i ys) : ys.Perm xs := by
  induction h with
  | zero => exact .refl _
  | succ _ _ _ ih => exact (perm_moveToRear _ _).trans ih

/-- After `i` rounds the last `i` elements are in place. By induction on the rounds. -/
theorem Rounds.placed (h : Rounds key xs i ys) : Placed key i ys := by
  induction h with
  | zero => exact placed_zero _
  | succ h hi hm ih =>
    rw [← h.perm.length_eq] at hi hm
    exact ih.moveToRear hi hm

/-- As many rounds as there are elements sort the list. -/
theorem Rounds.sorted (h : Rounds key xs xs.length ys) :
    ys.Pairwise (fun a b => key a ≤ key b) := by
  have hplaced := h.placed
  rw [← h.perm.length_eq] at hplaced
  exact hplaced.pairwise

/-! ## Equal keys -/

/-- The elements with key `k`. -/
def withKey (key : α → β) (k : β) (xs : List α) : List α := xs.filter fun a => key a = k

/-- The elements of one key of a joined list are those of its parts. -/
theorem withKey_append (k : β) (xs ys : List α) :
    withKey key k (xs ++ ys) = withKey key k xs ++ withKey key k ys := List.filter_append ..

theorem withKey_cons_of_eq {k : β} {x : α} (h : key x = k) :
    withKey key k (x :: xs) = x :: withKey key k xs := by
  unfold withKey
  exact List.filter_cons_of_pos (decide_eq_true h)

theorem withKey_cons_of_ne {k : β} {x : α} (h : key x ≠ k) :
    withKey key k (x :: xs) = withKey key k xs := by
  unfold withKey
  exact List.filter_cons_of_neg (by simpa using h)

/-- To be among the elements of one key is to be in the list with that key. -/
theorem mem_withKey {k : β} {x : α} : x ∈ withKey key k xs ↔ x ∈ xs ∧ key x = k := by
  unfold withKey
  rw [List.mem_filter, decide_eq_true_eq]

/-- A list without that key has no such elements. -/
theorem withKey_eq_nil {k : β} (h : ∀ a ∈ xs, key a ≠ k) : withKey key k xs = [] := by
  unfold withKey
  rw [List.filter_eq_nil_iff]
  intro a ha heq
  exact h a ha (of_decide_eq_true heq)

/-- The elements of one key that are in place stand in reverse, behind them those that are not. This
is the invariant of the rounds from which the order of equal keys follows. -/
theorem Rounds.withKey_eq (h : Rounds key xs i ys) : ∃ pre suf, ys = pre ++ suf ∧ suf.length = i ∧
    ∀ k, withKey key k xs = withKey key k pre ++ (withKey key k suf).reverse := by
  induction h with
  | zero => exact ⟨xs, [], (List.append_nil _).symm, rfl, fun k => (List.append_nil _).symm⟩
  | @succ i m ys h hi hm ih =>
    obtain ⟨pre, suf, rfl, rfl, hkeys⟩ := ih
    have hlength := h.perm.length_eq
    rw [List.length_append] at hlength
    have hle := hm.le_bound
    have hlt : m < pre.length := by omega
    -- no element behind the last minimum has its key
    obtain ⟨front, x, back, rfl, rfl⟩ : ∃ front x back, pre = front ++ x :: back ∧
        front.length = m :=
      ⟨pre.take m, pre[m], pre.drop (m + 1), by simp, by simp; omega⟩
    have hlast : ∀ a ∈ back, key x < key a := by
      intro a ha
      obtain ⟨j, hj, rfl⟩ := List.getElem_of_mem ha
      rw [List.length_append, List.length_cons] at hlength
      have hbehind := hm.last (front.length + (j + 1))
        (by simp only [List.length_append, List.length_cons]; omega) (by omega) (by omega)
      simpa [List.getElem_append_left hj] using hbehind
    refine ⟨front ++ back, suf ++ [x], ?_, by simp, fun k => ?_⟩
    · rw [moveToRear_eq (by simp)]
      simp [List.eraseIdx_append_of_length_le]
    · have hsplit : withKey key k (x :: back) = withKey key k [x] ++ withKey key k back :=
        withKey_append k [x] back
      rw [hkeys k, withKey_append, hsplit, withKey_append, withKey_append, List.reverse_append]
      by_cases hk : key x = k
      · have hback : withKey key k back = [] :=
          withKey_eq_nil fun a ha heq => ne_of_gt (hlast a ha) (heq.trans hk.symm)
        have hone : withKey key k [x] = [x] := withKey_cons_of_eq hk
        simp [hback, hone]
      · have hnone : withKey key k [x] = [] :=
          withKey_eq_nil fun a ha heq => hk (List.mem_singleton.mp ha ▸ heq)
        simp [hnone]

/-- The sort reverses the elements of each key: the last minimum is moved first. -/
theorem Rounds.withKey_reverse (h : Rounds key xs xs.length ys) (k : β) :
    withKey key k ys = (withKey key k xs).reverse := by
  obtain ⟨pre, suf, rfl, hlength, hkeys⟩ := h.withKey_eq
  have hall := h.perm.length_eq
  rw [List.length_append, hlength] at hall
  obtain rfl : pre = [] := List.length_eq_zero_iff.mp (by omega)
  rw [hkeys k]
  exact (List.reverse_reverse _).symm

/-- A relation between elements of the same key can be checked key by key. -/
theorem pairwise_withKey {S : α → α → Prop} :
    xs.Pairwise (fun a b => key a = key b → S a b) ↔ ∀ k, (withKey key k xs).Pairwise S := by
  induction xs with
  | nil => exact iff_of_true .nil fun _ => .nil
  | cons x xs ih =>
    rw [List.pairwise_cons, ih]
    constructor
    · rintro ⟨hx, hxs⟩ k
      by_cases hk : key x = k
      · rw [withKey_cons_of_eq hk, List.pairwise_cons]
        refine ⟨fun b hb => ?_, hxs k⟩
        obtain ⟨hmem, heq⟩ := mem_withKey.mp hb
        exact hx b hmem (hk.trans heq.symm)
      · rw [withKey_cons_of_ne hk]
        exact hxs k
    · intro h
      constructor
      · intro b hb heq
        have hkey := h (key x)
        rw [withKey_cons_of_eq rfl, List.pairwise_cons] at hkey
        exact hkey.1 b (mem_withKey.mpr ⟨hb, heq.symm⟩)
      · intro k
        exact (h k).sublist ((List.sublist_cons_self x xs).filter _)

/-- If the elements of equal keys stand in the list in one direction of a relation, they stand in
the sorted list in the other. -/
theorem Rounds.pairwise {S : α → α → Prop} (h : Rounds key xs xs.length ys)
    (hS : xs.Pairwise fun a b => key a = key b → S b a) :
    ys.Pairwise fun a b => key a = key b → S a b := by
  rw [pairwise_withKey]
  intro k
  rw [h.withKey_reverse k, List.pairwise_reverse]
  exact pairwise_withKey.mp hS k

/-! ## Marked elements -/

section Marks

variable {γ : Type*} {f : γ → α} {ts : List γ}

/-- Marks on the elements do not change which one is the last minimum. -/
theorem isLastMin_map {bound : Nat} :
    IsLastMin key bound (ts.map f) m ↔ IsLastMin (fun t => key (f t)) bound ts m := by
  constructor
  · rintro ⟨hlt, hle, hmin, hlast⟩
    have hlt' : m < ts.length := by simpa using hlt
    refine ⟨hlt', hle, fun j hj hjb => ?_, fun j hj hmj hjb => ?_⟩
    · have h := hmin j (by simpa using hj) hjb
      rwa [List.getElem_map, List.getElem_map] at h
    · have h := hlast j (by simpa using hj) hmj hjb
      rwa [List.getElem_map, List.getElem_map] at h
  · rintro ⟨hlt, hle, hmin, hlast⟩
    refine ⟨by simpa using hlt, hle, fun j hj hjb => ?_, fun j hj hmj hjb => ?_⟩
    · rw [List.getElem_map, List.getElem_map]
      exact hmin j _ hjb
    · rw [List.getElem_map, List.getElem_map]
      exact hlast j _ hmj hjb

/-- Marks on the elements are moved with them. -/
theorem moveToRear_map (m : Nat) (ts : List γ) :
    moveToRear m (ts.map f) = (moveToRear m ts).map f := by
  unfold moveToRear
  rw [List.map_append, List.eraseIdx_map, List.getElem?_map]
  cases ts[m]? <;> rfl

/-- The moves of a sort take marks along: the rounds of a list of marked elements are those of the
elements without their marks. -/
theorem Rounds.lift (h : Rounds key (ts.map f) i ys) :
    ∃ ts', Rounds (fun t => key (f t)) ts i ts' ∧ ts'.map f = ys := by
  induction h with
  | zero => exact ⟨ts, .zero, rfl⟩
  | succ _ hi hm ih =>
    obtain ⟨ts', hrounds, rfl⟩ := ih
    rw [List.length_map] at hi hm
    exact ⟨_, .succ hrounds hi (isLastMin_map.mp hm), (moveToRear_map _ _).symm⟩

end Marks

end OsLab.RearSelection
