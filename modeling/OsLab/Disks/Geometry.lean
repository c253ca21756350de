import Mathlib.Logic.Function.Basic
import OsLab.Disks.Disk
import OsLab.Random

/-!
# The block layout

`InitBlockLayout` with all its tables: the blocks of the three tracks, one behind the other, and the
angle of each block. `MakeRequests` draws block numbers up to `maxBlock`, which is where the last
track begins.

* **`addBlock`**, **`addTrack`**, **`initBlockLayout`** -- the three nested loops over tracks and
  angles.
* **`addBlocks_adds`** -- what the loop over a track enters, by induction on the number of angles.
* **`Numbered`**, **`initBlockLayout_ok`** -- the tables of an accepted zoning: numbers without
  gaps, and one track for each.
* **`drawRequest_range`** -- what a draw gives: `maxBlock` numbers, from the minimum on.
* **`drawsValid_iff`** -- the maximum -1 reaches every block exactly if the minimum is the length of
  the inner track.
-/

namespace OsLab.Disks

/-! ## InitBlockLayout -/

/-- What `InitBlockLayout` fills; a key that a dictionary does not have is `none`. -/
structure Tables where
  blockInfoList : List (Nat × Int × Int)
  blockToTrackMap : Int → Option Nat
  blockToAngleMap : Int → Option Int
  tracksBeginEnd : Nat → Option (Int × Int)
  blockAngleOffset : List Nat
  maxBlock : Int

namespace Tables

/-- The body of a loop over the angles of a track. -/
def addBlock (t : Tables) (track : Nat) (angle block : Int) : Tables :=
  { t with
    blockInfoList := t.blockInfoList ++ [(track, angle, block)]
    blockToTrackMap := Function.update t.blockToTrackMap block (some track)
    blockToAngleMap := Function.update t.blockToAngleMap block (some angle) }

/-- `for angle in range(0, 360, angleOffset)` with `n` angles, and the last `block`. -/
def addBlocks (t : Tables) (track angleOffset n : Nat) (skew pblock : Int) : Tables × Int :=
  (List.range' 0 n angleOffset).foldl
    (fun acc angle =>
      let block := ((angle / angleOffset : Nat) : Int) + pblock
      (acc.1.addBlock track (angle + angleOffset * skew) block, block))
    (t, pblock)

/-- The part for one track; it returns the next `pblock`. -/
def addTrack (t : Tables) (track : Nat) (skew pblock : Int) : Except Abort (Tables × Int) := do
  let offset ← index t.blockAngleOffset (some track)
  let n ← trackLength (2 * offset)
  let (t, block) := t.addBlocks track (2 * offset) n skew pblock
  let t := { t with
    tracksBeginEnd := Function.update t.tracksBeginEnd track (some (pblock, block)) }
  return (t, block + 1)

/-- `InitBlockLayout` -/
def initBlockLayout (zoning : Nat × Nat × Nat) (skew : Int) : Except Abort Tables := do
  let t : Tables := {
    blockInfoList := []
    blockToTrackMap := fun _ => none
    blockToAngleMap := fun _ => none
    tracksBeginEnd := fun _ => none
    blockAngleOffset := [zoning.1 / 2, zoning.2.1 / 2, zoning.2.2 / 2]
    maxBlock := 0 }
  let (t, pblock) ← t.addTrack 0 0 0
  let (t, pblock) ← t.addTrack 1 skew pblock
  let (t, _) ← t.addTrack 2 (2 * skew) pblock
  -- `pblock` is not moved on after the inner track
  return { t with
    maxBlock := pblock
    blockToAngleMap := fun block => (t.blockToAngleMap block).map fun angle => (angle + 180) % 360 }

end Tables

/-! ## MakeRequests -/

/-- `int(random.random() * maxRequest) + minRequest` -/
def drawRequest (maxRequest minRequest : Int) (draw : Rat) : Int :=
  intOfRat (draw * maxRequest) + minRequest

/-- The three numbers of a descriptor; `PrintAddrDescMessage` ends the program. -/
def parseDesc (addrDesc : Str) : Except Abort (Int × Int × Int) :=
  match split addrDesc ',' with
  | [num, max, min] => do
    let numRequests ← intOfStr num
    let maxRequest ← intOfStr max
    let minRequest ← intOfStr min
    return (numRequests, maxRequest, minRequest)
  | _ => .error .exit

/-- `MakeRequests` -/
def Tables.makeRequests (t : Tables) (draws : Nat → Rat) (addr addrDesc : Str) :
    Except Abort (List Block) :=
  if addr = ['-', '1'] then do
    let (numRequests, maxRequest, minRequest) ← parseDesc addrDesc
    let maxRequest := if maxRequest = -1 then t.maxBlock else maxRequest
    return (List.range numRequests.toNat).map fun i =>
      .int (drawRequest maxRequest minRequest (draws i))
  else
    return (split addr ',').map .str

/-! ## One track -/

namespace Tables

section Track

variable (t : Tables) (track : Nat) {angleOffset : Nat} (skew pblock : Int)

/-- The block at a position of a track, as the loop lists it. -/
def infoAt (track angleOffset : Nat) (skew pblock : Int) (k : Nat) : Nat × Int × Int :=
  (track, k * angleOffset + angleOffset * skew, pblock + k)

/-- The blocks from `pblock` on, in order. -/
structure Adds (t t' : Tables) (track angleOffset n : Nat) (skew pblock : Int) : Prop where
  info : t'.blockInfoList =
    t.blockInfoList ++ (List.range n).map (infoAt track angleOffset skew pblock)
  track : ∀ b, t'.blockToTrackMap b =
    if pblock ≤ b ∧ b < pblock + n then some track else t.blockToTrackMap b
  angle : ∀ b, t'.blockToAngleMap b =
    if pblock ≤ b ∧ b < pblock + n then
      some ((b - pblock) * angleOffset + angleOffset * skew)
    else
      t.blockToAngleMap b
  offsets : t'.blockAngleOffset = t.blockAngleOffset

/-- One more angle adds one more block behind those before it. -/
theorem addBlocks_succ (hpos : 0 < angleOffset) (n : Nat) :
    t.addBlocks track angleOffset (n + 1) skew pblock =
      ((t.addBlocks track angleOffset n skew pblock).1.addBlock track
        (n * angleOffset + angleOffset * skew) (pblock + n), pblock + n) := by
  have hblock : (((angleOffset * n / angleOffset : Nat) : Int) + pblock) = pblock + n := by
    rw [Nat.mul_div_cancel_left n hpos, Int.add_comm]
  unfold addBlocks
  rw [List.range'_concat, List.foldl_append, List.foldl_cons, List.foldl_nil, Nat.zero_add, hblock,
    Nat.mul_comm angleOffset n, Int.natCast_mul]

/-- The loop over a track enters its blocks in order, with the angle and the track of each; by
induction on the number of angles. -/
theorem addBlocks_adds (hpos : 0 < angleOffset) (n : Nat) :
    Adds t (t.addBlocks track angleOffset n skew pblock).1 track angleOffset n skew pblock := by
  induction n with
  | zero =>
    have hnone : ∀ b : Int, ¬(pblock ≤ b ∧ b < pblock + (0 : Nat)) := fun b hb => by omega
    refine ⟨(List.append_nil _).symm, fun b => ?_, fun b => ?_, rfl⟩
    · rw [if_neg (hnone b)]
      rfl
    · rw [if_neg (hnone b)]
      rfl
  | succ n ih =>
    rw [addBlocks_succ t track skew pblock hpos]
    refine ⟨?_, fun b => ?_, fun b => ?_, ih.offsets⟩
    · show (t.addBlocks track angleOffset n skew pblock).1.blockInfoList ++ [_] = _
      rw [ih.info, List.range_succ, List.map_append, List.append_assoc]
      rfl
    · show Function.update (t.addBlocks track angleOffset n skew pblock).1.blockToTrackMap _ _ b = _
      by_cases hb : b = pblock + n
      · rw [hb, Function.update_self, if_pos (by omega)]
      · rw [Function.update_of_ne hb, ih.track]
        exact if_congr (by omega) rfl rfl
    · show Function.update (t.addBlocks track angleOffset n skew pblock).1.blockToAngleMap _ _ b = _
      by_cases hb : b = pblock + n
      · rw [hb, Function.update_self, if_pos (by omega), add_sub_cancel_left]
      · rw [Function.update_of_ne hb, ih.angle]
        exact if_congr (by omega) rfl rfl

theorem addBlocks_begins (angleOffset n : Nat) :
    (t.addBlocks track angleOffset n skew pblock).1.tracksBeginEnd = t.tracksBeginEnd := by
  unfold addBlocks
  generalize List.range' 0 n angleOffset = angles
  generalize hacc : ((t, pblock) : Tables × Int) = acc
  have hinit : t.tracksBeginEnd = acc.1.tracksBeginEnd := by rw [← hacc]
  clear hacc
  rw [hinit]
  clear hinit
  induction angles generalizing acc with
  | nil => rfl
  | cons angle angles ih => exact ih _

/-- The loop leaves the number of the last block of a track that is not empty. -/
theorem addBlocks_last (hpos : 0 < angleOffset) {n : Nat} (hn : 0 < n) :
    (t.addBlocks track angleOffset n skew pblock).2 = pblock + n - 1 := by
  obtain ⟨m, rfl⟩ := Nat.exists_eq_succ_of_ne_zero hn.ne'
  rw [Nat.succ_eq_add_one, addBlocks_succ t track skew pblock hpos]
  show pblock + (m : Int) = _
  omega

end Track

/-- A track that has a length has blocks of some width, and at least one of them. -/
theorem trackLength_ok {zone n : Nat} (h : trackLength zone = .ok n) :
    0 < zone / 2 ∧ 0 < n := by
  constructor
  · by_contra hzero
    unfold trackLength at h
    rw [if_pos (by omega)] at h
    cases h
  · unfold trackLength at h
    dsimp only at h
    split at h
    · cases h
    · obtain rfl := Except.ok.inj h
      exact Nat.div_pos (by omega) (by omega)

/-! ## Three tracks -/

theorem trackLength_half (zone : Nat) : trackLength (2 * (zone / 2)) = trackLength zone := by
  have hhalf : 2 * (zone / 2) / 2 = zone / 2 := by omega
  unfold trackLength
  rw [hhalf]

/-- The part for one track: it has entered the blocks from `pblock` on, and the next track starts
behind them. -/
theorem addTrack_ok {t t' : Tables} {track : Nat} {skew pblock next : Int} {zone : Nat}
    (hzone : t.blockAngleOffset[track]? = some (zone / 2))
    (h : t.addTrack track skew pblock = .ok (t', next)) :
    ∃ n, trackLength zone = .ok n ∧ 0 < n ∧ next = pblock + n ∧
      t'.tracksBeginEnd =
        Function.update t.tracksBeginEnd track (some (pblock, pblock + n - 1)) ∧
      Adds t t' track (2 * (zone / 2)) n skew pblock := by
  unfold addTrack at h
  obtain ⟨offset, hoffset, h⟩ := bind_eq_ok.mp h
  rw [index_some_eq_ok, hzone] at hoffset
  obtain rfl := Option.some.inj hoffset
  obtain ⟨n, hn, h⟩ := bind_eq_ok.mp h
  have hlength := (trackLength_half zone).symm.trans hn
  obtain ⟨hhalf, hpos⟩ := trackLength_ok hlength
  have hangle : 0 < 2 * (zone / 2) := by omega
  have hadds := addBlocks_adds t track skew pblock hangle n
  have hlast := addBlocks_last t track skew pblock hangle hpos
  have hbegins := addBlocks_begins t track skew pblock (2 * (zone / 2)) n
  cases hloop : t.addBlocks track (2 * (zone / 2)) n skew pblock with
  | mk t₁ block =>
    rw [hloop] at hadds hlast hbegins h
    obtain ⟨rfl, rfl⟩ := Prod.mk.inj (Except.ok.inj h)
    dsimp only at hadds hlast hbegins
    refine ⟨n, hlength, hpos, by omega, ?_, ⟨hadds.info, hadds.track, hadds.angle, hadds.offsets⟩⟩
    rw [← hlast, ← hbegins]

/-- A layout and its tables. The blocks are numbered without gaps, and each is on the one track
that its number falls into. -/
structure Numbered (t : Tables) (l : Layout) : Prop where
  positive : 0 < l.outer ∧ 0 < l.middle ∧ 0 < l.inner
  numbers : t.blockInfoList.map (fun info => info.2.2) =
    (List.range (l.outer + l.middle + l.inner)).map Int.ofNat
  intervals : t.tracksBeginEnd 0 = some (0, (l.outer : Int) - 1) ∧
    t.tracksBeginEnd 1 = some ((l.outer : Int), (l.outer : Int) + l.middle - 1) ∧
    t.tracksBeginEnd 2 = some ((l.outer : Int) + l.middle,
      (l.outer : Int) + l.middle + l.inner - 1) ∧
    ∀ track, 2 < track → t.tracksBeginEnd track = none
  onTrack : ∀ b track, t.blockToTrackMap b = some track ↔
    ∃ first last, t.tracksBeginEnd track = some (first, last) ∧ first ≤ b ∧ b ≤ last

theorem exists_interval {first last b : Int} :
    (∃ f l, some (first, last) = some (f, l) ∧ f ≤ b ∧ b ≤ l) ↔ first ≤ b ∧ b ≤ last := by
  constructor
  · intro ⟨f, l, heq, hb⟩
    cases heq
    exact hb
  · intro hb
    exact ⟨first, last, rfl, hb⟩

/-- The angle of a block in steps of its track's `angleOffset`. -/
def angleAt (zone : Nat) (skew k : Int) : Int :=
  (k * (2 * (zone / 2) : Nat) + (2 * (zone / 2) : Nat) * skew + 180) % 360

/-- `InitBlockLayout` lays the three tracks one behind the other, and its tables are `Numbered`. -/
theorem initBlockLayout_ok {zoning : Nat × Nat × Nat} {skew : Int} {t : Tables}
    (h : initBlockLayout zoning skew = .ok t) :
    ∃ l, Disks.initBlockLayout zoning = .ok l ∧ Numbered t l ∧
      t.maxBlock = (l.outer : Int) + l.middle ∧
      t.blockAngleOffset = [zoning.1 / 2, zoning.2.1 / 2, zoning.2.2 / 2] ∧
      ∀ b, t.blockToAngleMap b =
        if 0 ≤ b ∧ b < l.outer then some (angleAt zoning.1 0 b)
        else if (l.outer : Int) ≤ b ∧ b < (l.outer : Int) + l.middle then
          some (angleAt zoning.2.1 skew (b - l.outer))
        else if (l.outer : Int) + l.middle ≤ b ∧ b < (l.outer : Int) + l.middle + l.inner then
          some (angleAt zoning.2.2 (2 * skew) (b - (l.outer + l.middle)))
        else none := by
  unfold initBlockLayout at h
  obtain ⟨⟨t₀, p₀⟩, h₀, h⟩ := bind_eq_ok.mp h
  obtain ⟨⟨t₁, p₁⟩, h₁, h⟩ := bind_eq_ok.mp h
  obtain ⟨⟨t₂, p₂⟩, h₂, h⟩ := bind_eq_ok.mp h
  -- Each track starts at the `pblock` that the one before it has left, in the tables of that one.
  obtain ⟨outer, houter, hpos₀, rfl, hbegins₀, hadds₀⟩ := addTrack_ok rfl h₀
  have hzone₁ : t₀.blockAngleOffset[1]? = some (zoning.2.1 / 2) := by
    rw [hadds₀.offsets]
    rfl
  obtain ⟨middle, hmiddle, hpos₁, rfl, hbegins₁, hadds₁⟩ := addTrack_ok hzone₁ h₁
  have hzone₂ : t₁.blockAngleOffset[2]? = some (zoning.2.2 / 2) := by
    rw [hadds₁.offsets, hadds₀.offsets]
    rfl
  obtain ⟨inner, hinner, hpos₂, rfl, hbegins₂, hadds₂⟩ := addTrack_ok hzone₂ h₂
  obtain rfl := Except.ok.inj h
  -- Three updates of `tracksBeginEnd`, at different keys.
  have hintervals : t₂.tracksBeginEnd 0 = some (0, (outer : Int) - 1) ∧
      t₂.tracksBeginEnd 1 = some ((outer : Int), (outer : Int) + middle - 1) ∧
      t₂.tracksBeginEnd 2 = some ((outer : Int) + middle, (outer : Int) + middle + inner - 1) ∧
      ∀ track, 2 < track → t₂.tracksBeginEnd track = none := by
    rw [hbegins₂, hbegins₁, hbegins₀, Int.zero_add]
    refine ⟨rfl, rfl, rfl, fun track htrack => ?_⟩
    rw [Function.update_of_ne (by omega), Function.update_of_ne (by omega),
      Function.update_of_ne (by omega)]
  -- What is left is to read the tables, which are those of the last track over the other two.
  refine ⟨⟨outer, middle, inner⟩, ?_, ⟨⟨hpos₀, hpos₁, hpos₂⟩, ?_, hintervals, ?_⟩, ?_, ?_, ?_⟩
  · unfold Disks.initBlockLayout
    rw [houter, hmiddle, hinner]
    rfl
  -- The numbers in the list run through the tracks, each from its own start.
  · show t₂.blockInfoList.map _ = (List.range (outer + middle + inner)).map Int.ofNat
    rw [hadds₂.info, hadds₁.info, hadds₀.info, List.range_add, List.range_add]
    simp only [List.nil_append, List.map_append, List.map_map]
    congr 1
    · congr 1
      · apply List.map_congr_left
        intro k _
        exact Int.zero_add _
      · apply List.map_congr_left
        intro k _
        show 0 + (outer : Int) + k = ((outer + k : Nat) : Int)
        omega
    · apply List.map_congr_left
      intro k _
      show 0 + (outer : Int) + middle + k = ((outer + middle + k : Nat) : Int)
      omega
  -- A block has the track whose interval it is in: one case for each track, and one for all the
  -- others.
  · intro b track
    show t₂.blockToTrackMap b = _ ↔ ∃ first last, t₂.tracksBeginEnd track = _ ∧ _
    rw [hadds₂.track, hadds₁.track, hadds₀.track]
    match track with
    | 0 =>
      rw [hintervals.1, exists_interval]
      split_ifs <;> simp <;> omega
    | 1 =>
      rw [hintervals.2.1, exists_interval]
      split_ifs <;> simp <;> omega
    | 2 =>
      rw [hintervals.2.2.1, exists_interval]
      split_ifs <;> simp <;> omega
    | track + 3 =>
      rw [hintervals.2.2.2 (track + 3) (by omega)]
      split_ifs <;> simp
  · show 0 + (outer : Int) + middle = _
    rw [Int.zero_add]
  · exact (hadds₂.offsets.trans hadds₁.offsets).trans hadds₀.offsets
  · intro b
    show (t₂.blockToAngleMap b).map _ = _
    rw [hadds₂.angle, hadds₁.angle, hadds₀.angle]
    dsimp only
    split_ifs <;> first | omega | skip
    · rw [Int.zero_add]
      rfl
    · rw [Int.zero_add]
      rfl
    · rw [Int.sub_zero]
      rfl
    · rfl

theorem addTrack_total {t : Tables} {track zone n : Nat}
    (hzone : t.blockAngleOffset[track]? = some (zone / 2)) (hn : trackLength zone = .ok n)
    (skew pblock : Int) : ∃ t' next, t.addTrack track skew pblock = .ok (t', next) ∧
      t'.blockAngleOffset = t.blockAngleOffset := by
  obtain ⟨⟨t', next⟩, hok⟩ : ∃ r, t.addTrack track skew pblock = .ok r := by
    unfold addTrack
    rw [index_some_eq_ok.mpr hzone]
    show ∃ r, (trackLength (2 * (zone / 2)) >>= _) = .ok r
    rw [trackLength_half, hn]
    exact ⟨_, rfl⟩
  obtain ⟨_, _, _, _, _, hadds⟩ := addTrack_ok hzone hok
  exact ⟨t', next, hok, hadds.offsets⟩

/-- The tables are built for every zoning that has a layout, whatever the skew. -/
theorem initBlockLayout_total {zoning : Nat × Nat × Nat} {l : Layout}
    (h : Disks.initBlockLayout zoning = .ok l) (skew : Int) :
    ∃ t, initBlockLayout zoning skew = .ok t := by
  unfold Disks.initBlockLayout at h
  obtain ⟨outer, houter, h⟩ := bind_eq_ok.mp h
  obtain ⟨middle, hmiddle, h⟩ := bind_eq_ok.mp h
  obtain ⟨inner, hinner, _⟩ := bind_eq_ok.mp h
  let t : Tables := {
    blockInfoList := []
    blockToTrackMap := fun _ => none
    blockToAngleMap := fun _ => none
    tracksBeginEnd := fun _ => none
    blockAngleOffset := [zoning.1 / 2, zoning.2.1 / 2, zoning.2.2 / 2]
    maxBlock := 0 }
  obtain ⟨t₀, p₀, h₀, hoffsets₀⟩ := addTrack_total
    (show t.blockAngleOffset[0]? = some (zoning.1 / 2) from rfl) houter 0 0
  obtain ⟨t₁, p₁, h₁, hoffsets₁⟩ := addTrack_total
    (show t₀.blockAngleOffset[1]? = some (zoning.2.1 / 2) by rw [hoffsets₀]; rfl) hmiddle skew p₀
  obtain ⟨t₂, p₂, h₂, _⟩ := addTrack_total
    (show t₁.blockAngleOffset[2]? = some (zoning.2.2 / 2) by rw [hoffsets₁, hoffsets₀]; rfl)
    hinner (2 * skew) p₁
  unfold initBlockLayout
  show ∃ r, (t.addTrack 0 0 0 >>= _) = .ok r
  rw [h₀]
  show ∃ t, (t₀.addTrack 1 skew p₀ >>= _) = .ok t
  rw [h₁]
  show ∃ t, (t₁.addTrack 2 (2 * skew) p₁ >>= _) = .ok t
  rw [h₂]
  exact ⟨_, rfl⟩

/-! ## Drawn requests -/

/-- What a descriptor with the maximum -1 is for: each draw gives a block from `minRequest` on,
and each of these blocks may be drawn. -/
structure DrawsValid (t : Tables) (minRequest : Int) : Prop where
  inRange : ∀ draw, IsDraw draw →
    minRequest ≤ drawRequest t.maxBlock minRequest draw ∧
      drawRequest t.maxBlock minRequest draw ≤ (t.blockInfoList.length : Int) - 1
  onTrack : ∀ draw, IsDraw draw →
    (t.blockToTrackMap (drawRequest t.maxBlock minRequest draw)).isSome = true
  reached : ∀ r, minRequest ≤ r → r ≤ (t.blockInfoList.length : Int) - 1 →
    ∃ draw, IsDraw draw ∧ drawRequest t.maxBlock minRequest draw = r

/-- With the maximum -1 the requests are as many draws as the descriptor asks for, each made with
`maxBlock`. -/
theorem makeRequests_generated (t : Tables) {addrDesc : Str} {num minRequest : Int}
    (hdesc : parseDesc addrDesc = .ok (num, -1, minRequest)) (draws : Nat → Rat) :
    t.makeRequests draws ['-', '1'] addrDesc =
      .ok ((List.range num.toNat).map fun i =>
        .int (drawRequest t.maxBlock minRequest (draws i))) := by
  unfold Tables.makeRequests
  rw [if_pos rfl, hdesc]
  rfl

/-- The numbers that are drawn: `maxBlock` of them, from `minRequest` on, and each of these is drawn
by some draw. -/
theorem drawRequest_range {m : Nat} (hm : 0 < m) (minRequest : Int) {draw : Rat}
    (hdraw : IsDraw draw) :
    minRequest ≤ drawRequest m minRequest draw ∧ drawRequest m minRequest draw < minRequest + m := by
  have hint := intOfRat_draw_mul hdraw hm
  unfold drawRequest
  rw [Int.cast_natCast]
  omega

theorem exists_drawRequest {m : Nat} {minRequest r : Int} (hr : minRequest ≤ r)
    (hlt : r < minRequest + m) : ∃ draw, IsDraw draw ∧ drawRequest m minRequest draw = r := by
  obtain ⟨k, hk⟩ := Int.eq_ofNat_of_zero_le (show 0 ≤ r - minRequest by omega)
  obtain ⟨draw, hdraw, hint⟩ := exists_intOfRat_draw_mul (show k < m by omega)
  refine ⟨draw, hdraw, ?_⟩
  unfold drawRequest
  rw [Int.cast_natCast, hint]
  omega

theorem Numbered.length {t : Tables} {l : Layout} (h : Numbered t l) :
    t.blockInfoList.length = l.outer + l.middle + l.inner := by
  have hlength := congrArg List.length h.numbers
  rw [List.length_map, List.length_map, List.length_range] at hlength
  exact hlength

/-- A block has a track exactly if it is one of the numbered ones, from 0 up to the number of
blocks. -/
theorem Numbered.isSome_iff {t : Tables} {l : Layout} (h : Numbered t l) (b : Int) :
    (t.blockToTrackMap b).isSome = true ↔ 0 ≤ b ∧ b < t.blockInfoList.length := by
  obtain ⟨h₀, h₁, h₂, hnone⟩ := h.intervals
  rw [h.length, Option.isSome_iff_exists]
  constructor
  · intro ⟨track, htrack⟩
    obtain ⟨first, last, hbegins, hb⟩ := (h.onTrack b track).mp htrack
    match track with
    | 0 =>
      rw [h₀] at hbegins
      cases hbegins
      omega
    | 1 =>
      rw [h₁] at hbegins
      cases hbegins
      omega
    | 2 =>
      rw [h₂] at hbegins
      cases hbegins
      omega
    | track + 3 =>
      rw [hnone (track + 3) (by omega)] at hbegins
      cases hbegins
  · intro hb
    by_cases houter : b < l.outer
    · exact ⟨0, (h.onTrack b 0).mpr ⟨_, _, h₀, by omega, by omega⟩⟩
    · by_cases hmiddle : b < (l.outer : Int) + l.middle
      · exact ⟨1, (h.onTrack b 1).mpr ⟨_, _, h₁, by omega, by omega⟩⟩
      · exact ⟨2, (h.onTrack b 2).mpr ⟨_, _, h₂, by omega, by omega⟩⟩

/-- The layout is as it should be. What is drawn with the maximum -1 falls short of the last
track by the length of the inner one, and is moved by the minimum. -/
theorem drawsValid_iff {zoning : Nat × Nat × Nat} {skew : Int} {t : Tables}
    (ht : initBlockLayout zoning skew = .ok t) {minRequest : Int}
    (hlt : minRequest < t.blockInfoList.length) :
    ∃ l, Disks.initBlockLayout zoning = .ok l ∧ Numbered t l ∧
      (∀ addrDesc num, parseDesc addrDesc = .ok (num, -1, minRequest) → ∀ draws,
        t.makeRequests draws ['-', '1'] addrDesc =
          .ok ((List.range num.toNat).map fun i =>
            .int (drawRequest t.maxBlock minRequest (draws i)))) ∧
      (DrawsValid t minRequest ↔ minRequest = l.inner) := by
  obtain ⟨l, hl, hnumbered, hmax, -, -⟩ := initBlockLayout_ok ht
  have hlength := hnumbered.length
  have hpos := hnumbered.positive
  have hmax' : t.maxBlock = ((l.outer + l.middle : Nat) : Int) := by
    rw [hmax]
    omega
  have hsome : 0 < l.outer + l.middle := by omega
  refine ⟨l, hl, hnumbered, fun addrDesc num hdesc draws =>
    makeRequests_generated t hdesc draws, ?_⟩
  constructor
  · intro hvalid
    -- the largest number that is drawn is the last block
    obtain ⟨draw, hdraw, hlast⟩ := exists_drawRequest
      (show minRequest ≤ minRequest + (l.outer + l.middle : Nat) - 1 by omega)
      (show minRequest + (l.outer + l.middle : Nat) - 1 < minRequest + (l.outer + l.middle : Nat)
        by omega)
    have hupper := (hvalid.inRange draw hdraw).2
    obtain ⟨draw', hdraw', hreached⟩ := hvalid.reached ((t.blockInfoList.length : Int) - 1)
      (by omega) (by omega)
    have hlower := (drawRequest_range hsome minRequest hdraw').2
    rw [hmax', hlast] at hupper
    rw [hmax'] at hreached
    omega
  · intro heq
    have hrange : ∀ draw, IsDraw draw →
        minRequest ≤ drawRequest t.maxBlock minRequest draw ∧
          drawRequest t.maxBlock minRequest draw ≤ (t.blockInfoList.length : Int) - 1 := by
      intro draw hdraw
      have hbounds := drawRequest_range hsome minRequest hdraw
      rw [hmax']
      omega
    refine ⟨hrange, fun draw hdraw => ?_, fun r hr hlast => ?_⟩
    · have hbounds := hrange draw hdraw
      exact (hnumbered.isSome_iff _).mpr ⟨by omega, by omega⟩
    · rw [hmax']
      exact exists_drawRequest hr (by omega)

theorem drawsValid_default :
    ∃ t, initBlockLayout (30, 30, 30) 0 = .ok t ∧
      ∃ l, Disks.initBlockLayout (30, 30, 30) = .ok l ∧ (DrawsValid t 12 ↔ (12 : Int) = l.inner) := by
  have haccepted : (initBlockLayout (30, 30, 30) 0).map (fun t => t.blockInfoList.length) =
      .ok 36 := by decide
  cases ht : initBlockLayout (30, 30, 30) 0 with
  | error e =>
    rw [ht] at haccepted
    cases haccepted
  | ok t =>
    rw [ht] at haccepted
    have hlength : t.blockInfoList.length = 36 := Except.ok.inj haccepted
    obtain ⟨l, hl, _, _, hiff⟩ := drawsValid_iff ht (show (12 : Int) < _ by
      rw [hlength]
      decide)
    exact ⟨t, rfl, l, hl, hiff⟩

/-- With the minimum 0 no block of the inner track is drawn; with the minimum 24 a draw of 1/2
gives block 36 of 36. -/
theorem drawn_amiss :
    ∃ t, initBlockLayout (30, 30, 30) 0 = .ok t ∧ t.blockInfoList.length = 36 ∧
      (∀ draw, IsDraw draw → drawRequest t.maxBlock 0 draw ≠ 24) ∧
      drawRequest t.maxBlock 24 (1 / 2) = 36 ∧ t.blockToTrackMap 36 = none := by
  have haccepted : (initBlockLayout (30, 30, 30) 0).map
      (fun t => (t.blockInfoList.length, t.maxBlock, t.blockToTrackMap 36)) =
      .ok (36, 24, none) := by decide
  cases ht : initBlockLayout (30, 30, 30) 0 with
  | error e =>
    rw [ht] at haccepted
    cases haccepted
  | ok t =>
    rw [ht] at haccepted
    obtain ⟨hlength, hmax, hnone⟩ : t.blockInfoList.length = 36 ∧ t.maxBlock = ((24 : Nat) : Int) ∧
        t.blockToTrackMap 36 = none := by
      have hall := Except.ok.inj haccepted
      exact ⟨congrArg Prod.fst hall, congrArg (fun p => p.2.1) hall,
        congrArg (fun p => p.2.2) hall⟩
    refine ⟨t, rfl, hlength, fun draw hdraw => ?_, ?_, hnone⟩
    · have hbounds := drawRequest_range (show 0 < 24 by decide) 0 hdraw
      rw [hmax]
      omega
    · rw [hmax]
      decide +kernel

end Tables

end OsLab.Disks
