import Mathlib.Data.List.Perm.Subperm
import OsLab.Disks.Disk

/-!
# The choice of the next request

What `DoSATF` and `DoSSTF` choose has not been served and is on a track; they find something as long
as the window reaches past the requests that have been served.

* **`OnTrack`**, **`Eligible`**, **`Readable`** -- a block that has a track, a request that has not
  been served, and a slice over which the loops run without a failing look-up.
* **`doSATF_cases`**, **`doSATF_total`** -- what `DoSATF` returns, and that it returns.
* **`sstfLoop_mem`**, **`sstfLoop_total`** -- the same for the list that `DoSSTF` collects.
* **`exists_eligible`** -- among the first entries of the queue there is one that has not been
  served, by counting.
-/

namespace OsLab.Disks

namespace Disk

variable {d : Disk} {est : Block → Rat} {rList trackList : List (Block × Nat)} {block : Block}
  {minIndex : Option Nat} {minEst : Rat} {i track : Nat}

/-- The block is on a track. -/
def OnTrack (l : Layout) (block : Block) : Prop := ∃ track ≤ 2, l.blockToTrackMap block = .ok track

/-- The request has not been served. -/
def Eligible (d : Disk) (i : Nat) : Prop := ∃ state, d.requestState[i]? = some state ∧ state ≠ .done

theorem onTrack_of_ok {l : Layout} (h : l.blockToTrackMap block = .ok track) :
    OnTrack l block := by
  refine ⟨track, ?_, h⟩
  cases block with
  | str s => cases h
  | int n =>
    simp only [Layout.blockToTrackMap] at h
    split at h
    · cases h
    split at h
    · cases h
      decide
    split at h
    · cases h
      decide
    split at h
    · cases h
      decide
    · cases h

/-- A request that is still text has no track: the keys of `blockToTrackMap` are numbers. -/
theorem OnTrack.ne_str {l : Layout} (h : OnTrack l block) (s : Str) : block ≠ .str s := by
  rintro rfl
  obtain ⟨track, _, hok⟩ := h
  cases hok

theorem OnTrack.ne_neg {l : Layout} (h : OnTrack l block) : block ≠ .int (-1) := by
  rintro rfl
  obtain ⟨track, _, hok⟩ := h
  cases hok

theorem eligible_or {state : State} (h : d.requestState[i]? = some state) :
    state = .done ∧ ¬ d.Eligible i ∨ state ≠ .done ∧ d.Eligible i := by
  by_cases hdone : state = .done
  · refine Or.inl ⟨hdone, ?_⟩
    rintro ⟨state', hstate', hne⟩
    obtain rfl : state = state' := Option.some.inj (h.symm.trans hstate')
    exact hne hdone
  · exact Or.inr ⟨hdone, state, h, hdone⟩

/-- `DoSATF`'s loop keeps what it has, having seen nothing to serve, or ends on a request of the
list that is still to be served and has a track. -/
theorem satfLoop_cases {minBlock : Block} {chosen : Block × Option Nat}
    (h : d.satfLoop est rList minEst minBlock minIndex = .ok chosen) :
    (chosen = (minBlock, minIndex) ∧ (minEst = -1 → ∀ e ∈ rList, ¬ d.Eligible e.2)) ∨
      ∃ e ∈ rList, chosen = (e.1, some e.2) ∧ d.Eligible e.2 ∧ OnTrack d.layout e.1 := by
  induction rList generalizing minEst minBlock minIndex with
  | nil =>
    obtain rfl := Except.ok.inj h
    exact Or.inl ⟨rfl, fun _ e he => by cases he⟩
  | cons e rList ih =>
    obtain ⟨block, i⟩ := e
    unfold satfLoop at h
    obtain ⟨state, hstate, h⟩ := bind_eq_ok.mp h
    rcases eligible_or (index_some_eq_ok.mp hstate) with ⟨hdone, hserved⟩ | ⟨hdone, heligible⟩
    · rw [if_pos hdone] at h
      rcases ih h with ⟨hsame, hnone⟩ | ⟨e, he, hchosen⟩
      · exact Or.inl ⟨hsame, fun hest => List.forall_mem_cons.mpr ⟨hserved, hnone hest⟩⟩
      · exact Or.inr ⟨e, List.mem_cons_of_mem _ he, hchosen⟩
    · rw [if_neg hdone] at h
      obtain ⟨track, htrack, h⟩ := bind_eq_ok.mp h
      dsimp only at h
      split at h
      · -- the request becomes the best one
        rcases ih h with ⟨hsame, _⟩ | ⟨e, he, hchosen⟩
        · exact Or.inr ⟨(block, i), List.mem_cons_self, hsame, heligible, onTrack_of_ok htrack⟩
        · exact Or.inr ⟨e, List.mem_cons_of_mem _ he, hchosen⟩
      · rename_i hworse
        rcases ih h with ⟨hsame, _⟩ | ⟨e, he, hchosen⟩
        · exact Or.inl ⟨hsame, fun hest => absurd (Or.inl hest) hworse⟩
        · exact Or.inr ⟨e, List.mem_cons_of_mem _ he, hchosen⟩

/-- The requests that a loop may look at. -/
def Readable (d : Disk) (rList : List (Block × Nat)) : Prop :=
  ∀ e ∈ rList, e.2 < d.requestState.length ∧ OnTrack d.layout e.1

/-- Over a readable slice the loop of `DoSATF` always comes to its end, whatever it has found
before. -/
theorem satfLoop_total (h : d.Readable rList) (est : Block → Rat) (minEst : Rat) (minBlock : Block)
    (minIndex : Option Nat) : ∃ chosen, d.satfLoop est rList minEst minBlock minIndex = .ok chosen := by
  induction rList generalizing minEst minBlock minIndex with
  | nil => exact ⟨_, rfl⟩
  | cons e rList ih =>
    obtain ⟨⟨hlt, track, _, htrack⟩, hrest⟩ := List.forall_mem_cons.mp h
    obtain ⟨block, i⟩ := e
    have hstate := index_some_eq_ok.mpr (List.getElem?_eq_getElem hlt)
    unfold satfLoop
    simp only [hstate, htrack, bind, Except.bind]
    split
    · exact ih hrest ..
    split
    · exact ih hrest ..
    · exact ih hrest ..

/-- What `DoSATF` returns is an entry of its list that has not been served and is on a track. -/
theorem doSATF_cases {chosen : Block × Option Nat} (h : d.doSATF est rList = .ok chosen) :
    ∃ e ∈ rList, chosen = (e.1, some e.2) ∧ d.Eligible e.2 ∧ OnTrack d.layout e.1 := by
  unfold doSATF at h
  obtain ⟨⟨minBlock, minIndex⟩, hloop, h⟩ := bind_eq_ok.mp h
  obtain ⟨_, _, h⟩ := bind_eq_ok.mp h
  obtain ⟨_, hindex, h⟩ := bind_eq_ok.mp h
  obtain rfl := Except.ok.inj h
  rcases satfLoop_cases hloop with ⟨hsame, _⟩ | hchosen
  · obtain ⟨_, rfl⟩ := Prod.mk.inj hsame
    simp at hindex
  · exact hchosen

/-- `DoSATF` returns something if its list is readable and holds a request to be served. The
`assert` behind the loop is what would fail otherwise. -/
theorem doSATF_total (h : d.Readable rList) (hsome : ∃ e ∈ rList, d.Eligible e.2)
    (est : Block → Rat) : ∃ chosen, d.doSATF est rList = .ok chosen := by
  obtain ⟨⟨minBlock, minIndex⟩, hloop⟩ := satfLoop_total h est (-1) (.int (-1)) none
  unfold doSATF
  rcases satfLoop_cases hloop with ⟨_, hnone⟩ | ⟨e, _, hchosen, _, htrack⟩
  · obtain ⟨e, he, heligible⟩ := hsome
    exact absurd heligible (hnone rfl e he)
  · obtain ⟨rfl, rfl⟩ := Prod.mk.inj hchosen
    have hne := htrack.ne_neg
    simp [hloop, hne, bind, Except.bind, pure, Except.pure]

/-- `DoSATF` looks up the track of every request that it may choose, so a run of the loop shows that
each of them has one. -/
theorem satfLoop_onTrack {minBlock : Block} {chosen : Block × Option Nat}
    (h : d.satfLoop est rList minEst minBlock minIndex = .ok chosen) :
    ∀ e ∈ rList, d.Eligible e.2 → OnTrack d.layout e.1 := by
  induction rList generalizing minEst minBlock minIndex with
  | nil => exact fun e he => by cases he
  | cons e rList ih =>
    obtain ⟨block, i⟩ := e
    unfold satfLoop at h
    obtain ⟨state, hstate, h⟩ := bind_eq_ok.mp h
    rw [List.forall_mem_cons]
    rcases eligible_or (index_some_eq_ok.mp hstate) with ⟨hdone, hserved⟩ | ⟨hdone, _⟩
    · rw [if_pos hdone] at h
      exact ⟨fun heligible => absurd heligible hserved, ih h⟩
    · rw [if_neg hdone] at h
      obtain ⟨track, htrack, h⟩ := bind_eq_ok.mp h
      refine ⟨fun _ => onTrack_of_ok htrack, ?_⟩
      dsimp only at h
      split at h
      · exact ih h
      · exact ih h

theorem doSATF_onTrack {chosen : Block × Option Nat} (h : d.doSATF est rList = .ok chosen) :
    ∀ e ∈ rList, d.Eligible e.2 → OnTrack d.layout e.1 := by
  unfold doSATF at h
  obtain ⟨⟨minBlock, minIndex⟩, hloop, _⟩ := bind_eq_ok.mp h
  exact satfLoop_onTrack hloop

/-- All that the loop of `DoSSTF` collects was there before, or comes from its list and has not been
served. -/
theorem sstfLoop_mem {minDist : Nat} {found : List (Block × Nat)}
    (h : d.sstfLoop rList minDist trackList = .ok found) :
    ∀ e ∈ found, e ∈ trackList ∨ e ∈ rList ∧ d.Eligible e.2 := by
  induction rList generalizing minDist trackList with
  | nil =>
    obtain rfl := Except.ok.inj h
    exact fun e he => Or.inl he
  | cons e rList ih =>
    obtain ⟨block, i⟩ := e
    have hlater : ∀ {e : Block × Nat}, e ∈ rList ∧ d.Eligible e.2 →
        e ∈ (block, i) :: rList ∧ d.Eligible e.2 :=
      fun he => ⟨List.mem_cons_of_mem _ he.1, he.2⟩
    unfold sstfLoop at h
    obtain ⟨state, hstate, h⟩ := bind_eq_ok.mp h
    rcases eligible_or (index_some_eq_ok.mp hstate) with ⟨hdone, _⟩ | ⟨hdone, heligible⟩
    · rw [if_pos hdone] at h
      exact fun e he => (ih h e he).imp_right hlater
    · rw [if_neg hdone] at h
      obtain ⟨track, _, h⟩ := bind_eq_ok.mp h
      have hself : (block, i) ∈ (block, i) :: rList ∧ d.Eligible i :=
        ⟨List.mem_cons_self, heligible⟩
      dsimp only at h
      split at h
      · intro e he
        rcases ih h e he with hmem | hmem
        · obtain rfl := List.mem_singleton.mp hmem
          exact Or.inr hself
        · exact Or.inr (hlater hmem)
      split at h
      · intro e he
        rcases ih h e he with hmem | hmem
        · rcases List.mem_append.mp hmem with hold | hnew
          · exact Or.inl hold
          · obtain rfl := List.mem_singleton.mp hnew
            exact Or.inr hself
        · exact Or.inr (hlater hmem)
      · exact fun e he => (ih h e he).imp_right hlater

/-- From an arm over one of the three tracks, no distance reaches `MAXTRACKS`; so the loop collects
something if there is anything to be served. -/
theorem sstfLoop_total (h : d.Readable rList) (harm : d.armTrack ≤ 2) (minDist : Nat)
    (hsome : trackList ≠ [] ∨ minDist = MAXTRACKS ∧ ∃ e ∈ rList, d.Eligible e.2) :
    ∃ found, d.sstfLoop rList minDist trackList = .ok found ∧ found ≠ [] := by
  induction rList generalizing minDist trackList with
  | nil =>
    rcases hsome with hne | ⟨_, e, he, _⟩
    · exact ⟨_, rfl, hne⟩
    · cases he
  | cons e rList ih =>
    obtain ⟨⟨hlt, track, htrackle, htrack⟩, hrest⟩ := List.forall_mem_cons.mp h
    obtain ⟨block, i⟩ := e
    have hstate := index_some_eq_ok.mpr (List.getElem?_eq_getElem hlt)
    unfold sstfLoop
    simp only [hstate, htrack, bind, Except.bind]
    rcases eligible_or (List.getElem?_eq_getElem hlt) with ⟨hdone, hserved⟩ | ⟨hdone, _⟩
    · rw [if_pos hdone]
      refine ih hrest _ (hsome.imp_right fun hex => ⟨hex.1, ?_⟩)
      obtain ⟨e, he, heligible⟩ := hex.2
      rcases List.mem_cons.mp he with rfl | he
      · exact absurd heligible hserved
      · exact ⟨e, he, heligible⟩
    · rw [if_neg hdone]
      split
      · exact ih hrest _ (Or.inl (by simp))
      split
      · exact ih hrest _ (Or.inl (by simp))
      · -- no track is as far away as `MAXTRACKS`
        rename_i hfar _
        refine ih hrest _ (Or.inl ?_)
        rcases hsome with hne | ⟨rfl, _⟩
        · exact hne
        · unfold MAXTRACKS at hfar
          omega

/-- More entries than requests that have been served: one of the entries in front is still to be
served. -/
theorem exists_eligible {k : Nat} (hqueue : d.requestQueue.length = d.requestState.length)
    (hserved : ∀ i < d.requestState.length, d.Eligible i ∨ i ∈ d.served)
    (hindex : ∀ i < d.requestQueue.length, ∃ block, d.requestQueue[i]? = some (block, i))
    (hwindow : d.served.length < k) (hcount : d.served.length < d.requestQueue.length) :
    ∃ e ∈ d.requestQueue.take k, d.Eligible e.2 := by
  by_contra hnone
  -- else the first requests are all served, and they are too many
  have hsubset : List.range (min k d.requestQueue.length) ⊆ d.served := by
    intro i hi
    have hlt := List.mem_range.mp hi
    obtain ⟨block, hget⟩ := hindex i (by omega)
    have hmem : (block, i) ∈ d.requestQueue.take k := by
      refine List.mem_of_getElem? (i := i) ?_
      rw [List.getElem?_take, if_pos (by omega), hget]
    rcases hserved i (by omega) with heligible | hin
    · exact absurd ⟨_, hmem, heligible⟩ hnone
    · exact hin
  have hle := (List.subperm_of_subset List.nodup_range hsubset).length_le
  rw [List.length_range] at hle
  omega

end Disk

end OsLab.Disks
