import Gwems.WebContent.QuadSpacesTracker

/-!
# `QuadSpacesTracker.js`: who hears whom

Two trackers that are near each other, measured by the cubes of a level, should meet on that level:
the channel on which one of them publishes should be among the channels of the other.

The names of the neighbours are made for that, but two things come in between. A level that is
smaller than the cube its tracker has a name for publishes on the name of the 4 m cube, since
`listToString` ignores the offset it is called with. And a tracker renews the neighbours of a level
only when it leaves a cube, so that it has those of the point where it came in.

`believes_string_iff` says exactly which levels meet, in terms of the current position of the
publisher and of the point at which the subscriber last renewed the level (`History.refreshPoint`).
`mutual_visibility_iff` puts the distance in; the levels that are too large for the name of the
publisher always meet (`covered_of_length_le`). Two trackers twelve meters apart that do not meet on
the 16 m level are in `not_visible_at_twelve_meters`.
-/

namespace Gwems

namespace QuadSpaces

variable {α : Type*} {A : Arithmetic α}

/-! ### Publish channels -/

theorem quads_zero (p : ℤ) : quads .zero p = [⟨.zero, p⟩] := by
  have hshift : (Vector3.zero : Vector3 ℤ).map shiftOut = .zero := rfl
  have hdigit : (Vector3.zero : Vector3 ℤ).map signedDigit = .zero := rfl
  rw [quads_eq, if_pos hshift, hdigit]

theorem isInt32_zero : (Vector3.zero : Vector3 ℤ).Forall IsInt32 := by
  have hzero : IsInt32 0 := by
    rw [IsInt32]
    omega
  exact ⟨hzero, hzero, hzero⟩

/-- "[0_0_0_" + logscale + "]" is the name of the cube at the origin. -/
theorem originString_eq (logscale : ℤ) :
    "[0_0_0_" ++ toString logscale ++ "]" = name [⟨.zero, logscale⟩] := by
  have hzero : toString (0 : ℤ) = "0" := rfl
  simp only [name, listToString, List.map_cons, List.map_nil, String.intercalate_singleton,
    Quad.toString, Vector3.zero, String.intercalate_cons_cons, hzero]
  rw [← String.append_assoc, ← String.append_assoc]
  rfl

theorem length_decompose (v : Vector3 α) (bias : ℤ) :
    (decompose A v bias).length = (quads (scale A v bias) bias).length := by
  rw [decompose, List.length_map]

theorem decompose_length_pos (v : Vector3 α) (bias : ℤ) : 0 < (decompose A v bias).length := by
  rw [length_decompose]
  exact List.length_pos_iff.mpr (quads_ne_nil _ _)

/-- The publish channel of a level of a position. -/
theorem channelString_eq (p : Vector3 α) (i : ℕ) (logscale : ℤ) :
    channelString (decompose A p 2) i logscale =
      if i < (decompose A p 2).length then name (quads (scale A p 2) 2)
      else name [⟨.zero, logscale⟩] := by
  rw [channelString]
  split
  next => rfl
  next => exact originString_eq logscale

/-- The origin is named by one size only. -/
theorem name_quads_eq_origin_iff {v : Vector3 ℤ} {m n : ℤ} (hv : v.Forall IsInt32) :
    name (quads v m) = name [⟨.zero, n⟩] ↔ m = n ∧ v = .zero := by
  rw [← quads_zero, name_quads_inj hv isInt32_zero]

/-- Two positions have the same publish channel on a level exactly if they are in one 4 m cube or
the level is too large for the names of both. -/
theorem channelString_eq_iff {p q : Vector3 α} {i : ℕ} :
    channelString (decompose A p 2) i (2 + 2 * i) = channelString (decompose A q 2) i (2 + 2 * i) ↔
      scale A p 2 = scale A q 2 ∨
        (decompose A p 2).length ≤ i ∧ (decompose A q 2).length ≤ i := by
  have hp : (scale A p 2).Forall IsInt32 := forall_isInt32_scale p 2
  have hq : (scale A q 2).Forall IsInt32 := forall_isInt32_scale q 2
  -- a level that has the name of the origin is not the smallest one
  have hlevel : ∀ {v : Vector3 α}, (decompose A v 2).length ≤ i → (2 : ℤ) ≠ 2 + 2 * i := by
    intro v hv
    have hpos := decompose_length_pos (A := A) v 2
    omega
  have hsame : scale A p 2 = scale A q 2 → (decompose A p 2).length = (decompose A q 2).length := by
    intro h
    rw [length_decompose, length_decompose, h]
  rw [channelString_eq, channelString_eq]
  split
  next hip =>
    split
    next hiq =>
      rw [name_quads_inj hp hq]
      refine ⟨fun h => .inl h.2, ?_⟩
      rintro (h | h)
      · exact ⟨rfl, h⟩
      · exact absurd hip (not_lt.mpr h.1)
    next hiq =>
      rw [name_quads_eq_origin_iff hp]
      refine ⟨fun h => absurd h.1 (hlevel (not_lt.mp hiq)), ?_⟩
      rintro (h | h)
      · exact absurd (hsame h ▸ hip) hiq
      · exact absurd hip (not_lt.mpr h.1)
  next hip =>
    split
    next hiq =>
      rw [eq_comm, name_quads_eq_origin_iff hq]
      refine ⟨fun h => absurd h.1 (hlevel (not_lt.mp hip)), ?_⟩
      rintro (h | h)
      · exact absurd (hsame h ▸ hiq) hip
      · exact absurd hiq (not_lt.mpr h.2)
    next hiq => exact iff_of_true rfl (.inr ⟨not_lt.mp hip, not_lt.mp hiq⟩)

/-! ### Histories -/

/-- The updates of a tracker, of which there is at least one. -/
structure History (α : Type*) where
  first : Update α
  rest : List (Update α)

/-- The position of the last update. -/
def History.current (h : History α) : Vector3 α :=
  h.rest.foldl (fun _ u => u.position) h.first.position

/-- A move from `p` to `q` gets to level `i`: it leaves a 4 m cube, and one of the two cubes has a
name that is longer than the number of the level. -/
def Crosses (A : Arithmetic α) (i : ℕ) (p q : Vector3 α) : Prop :=
  scale A p 2 ≠ scale A q 2 ∧
    (i < (decompose A p 2).length ∨ i < (decompose A q 2).length)

instance (i : ℕ) (p q : Vector3 α) : Decidable (Crosses A i p q) :=
  inferInstanceAs (Decidable (_ ∧ _))

/-- Where the last move of a list that gets to level `i` has ended, starting from `p` with the
answer `last` so far. -/
def refreshPointFrom (A : Arithmetic α) (i : ℕ) :
    Vector3 α → Vector3 α → List (Update α) → Vector3 α
  | _, last, [] => last
  | p, last, u :: us =>
    refreshPointFrom A i u.position (if Crosses A i p u.position then u.position else last) us

/-- The position at which level `i` was renewed for the last time. The first update renews all
levels. -/
def History.refreshPoint (A : Arithmetic α) (i : ℕ) (h : History α) : Vector3 α :=
  refreshPointFrom A i h.first.position h.first.position h.rest

/-- One update with the socket open. -/
def Tracker.move (A : Arithmetic α) (t : Tracker) (u : Update α) : Tracker :=
  (t.update A true u.time u.position u.velocity).1

/-- A new tracker after the updates of a history. -/
def History.tracker (A : Arithmetic α) (userHash : String) (time : ℤ) (h : History α) : Tracker :=
  h.rest.foldl (Tracker.move A) ((Tracker.new userHash time).move A h.first)

/-- A tracker at a position: its levels have the publish channels of the position, and the
neighbours of the points at which they were renewed. -/
structure Tracker.At (A : Arithmetic α) (p : Vector3 α) (last : ℕ → Vector3 α) (t : Tracker) :
    Prop where
  named : t.Named
  minLevel : t.minLevel = 2
  length : t.intervals.length = 6
  string : ∀ (i : ℕ) (level : Level), t.intervals[i]? = some level →
    level.string = channelString (decompose A p 2) i level.logscale
  spaces : ∀ (i : ℕ) (level : Level), t.intervals[i]? = some level →
    level.subscribeSpaces =
      surroundingSpaceNames A (last i) level.logscale (level.logscale + 1)

section At

variable {t : Tracker} {p : Vector3 α} {last : ℕ → Vector3 α} {i : ℕ}

/-- Getting to level `i`, put in terms of the two positions. -/
theorem Tracker.At.refreshed_iff (ht : t.At A p last) (q : Vector3 α) (hi : i < 6) :
    Refreshed (decompose A q 2) 0 t.intervals i ↔ Crosses A i p q := by
  have hlevel : ∀ j ≤ i, ∃ level : Level, t.intervals[j]? = some level ∧
      level.string = channelString (decompose A p 2) j (2 + 2 * j) ∧
      level.logscale = 2 + 2 * j := by
    intro j hj
    have hlt : j < t.intervals.length := ht.length ▸ lt_of_le_of_lt hj hi
    have hget := List.getElem?_eq_getElem hlt
    have hscale := ht.named.logscale j _ hget
    exact ⟨_, hget, hscale ▸ ht.string j _ hget, hscale⟩
  constructor
  · intro h
    obtain ⟨level, hget, hstring, hscale⟩ := hlevel i le_rfl
    have hne := h i le_rfl level hget
    rw [hstring, hscale, Nat.zero_add, ne_eq, channelString_eq_iff, not_or, not_and_or, not_le,
      not_le] at hne
    exact hne
  · rintro ⟨hcell, hlength⟩ j hj l hl
    obtain ⟨level, hget, hstring, hscale⟩ := hlevel j hj
    obtain rfl := Option.some_inj.mp (hget.symm.trans hl)
    rw [hstring, hscale, Nat.zero_add, ne_eq, channelString_eq_iff, not_or, not_and_or, not_le,
      not_le]
    exact ⟨hcell, hlength.imp (lt_of_le_of_lt hj) (lt_of_le_of_lt hj)⟩

/-- The step lemma. -/
theorem Tracker.At.move (ht : t.At A p last) (u : Update α) :
    (t.move A u).At A u.position fun i =>
      if Crosses A i p u.position then u.position else last i := by
  have hupdate : ∀ {i : ℕ} {level' : Level}, (t.move A u).intervals[i]? = some level' →
      ∃ level : Level, t.intervals[i]? = some level ∧ i < 6 ∧ level'.logscale = level.logscale ∧
        (Crosses A i p u.position →
          level'.string = channelString (decompose A u.position 2) i level.logscale ∧
          level'.subscribeSpaces =
            surroundingSpaceNames A u.position level.logscale (level.logscale + 1)) ∧
        (¬ Crosses A i p u.position →
          level'.string = level.string ∧ level'.subscribeSpaces = level.subscribeSpaces) := by
    intro i level' h
    obtain ⟨level, hlevel, hscale, hmoved, hkept⟩ := ht.named.getElem?_update h
    have hi : i < 6 := ht.length ▸ (List.getElem?_eq_some_iff.mp hlevel).1
    rw [ht.minLevel] at hmoved hkept
    rw [ht.refreshed_iff _ hi] at hmoved hkept
    exact ⟨level, hlevel, hi, hscale, hmoved, hkept⟩
  refine ⟨ht.named.update, ht.minLevel, ht.named.length_update.trans ht.length, ?_, ?_⟩
  · intro i level' h
    obtain ⟨level, hlevel, -, hscale, hmoved, hkept⟩ := hupdate h
    rw [hscale]
    by_cases hc : Crosses A i p u.position
    · exact (hmoved hc).1
    · -- the level has the channel it would have been given
      rw [(hkept hc).1, ht.string i level hlevel, ht.named.logscale i level hlevel,
        channelString_eq_iff]
      rw [Crosses, not_and_or, not_or, not_lt, not_lt, not_not] at hc
      exact hc
  · intro i level' h
    obtain ⟨level, hlevel, -, hscale, hmoved, hkept⟩ := hupdate h
    rw [hscale]
    split
    next hc => exact (hmoved hc).2
    next hc => rw [(hkept hc).2, ht.spaces i level hlevel]

theorem channelString_length_ne_zero (p : Vector3 α) (i : ℕ) (logscale : ℤ) :
    (channelString (decompose A p 2) i logscale).length ≠ 0 := by
  rw [channelString_eq]
  split
  next => exact name_length_ne_zero _
  next => exact name_length_ne_zero _

/-- The first update gets to all levels. -/
theorem at_move_new (userHash : String) (time : ℤ) (u : Update α) :
    ((Tracker.new userHash time).move A u).At A u.position fun _ => u.position := by
  have hnamed := named_new userHash time
  have hall : ∀ i,
      Refreshed (decompose A u.position 2) 0 (Tracker.new userHash time).intervals i := by
    intro i j _ level hlevel heq
    rw [(getElem?_new hlevel).2.2.1] at heq
    exact channelString_length_ne_zero (A := A) u.position (0 + j) level.logscale (heq ▸ rfl)
  have hlength : (Tracker.new userHash time).intervals.length = 6 := by
    simp [Tracker.new, levels]
  refine ⟨hnamed.update, rfl, hnamed.length_update.trans hlength, ?_, ?_⟩
  · intro i level' h
    obtain ⟨level, -, hscale, hmoved, -⟩ := hnamed.getElem?_update h
    rw [hscale]
    exact (hmoved (hall i)).1
  · intro i level' h
    obtain ⟨level, -, hscale, hmoved, -⟩ := hnamed.getElem?_update h
    rw [hscale]
    exact (hmoved (hall i)).2

/-- The run lemma. -/
theorem Tracker.At.foldl_move (ht : t.At A p last) (us : List (Update α)) :
    (us.foldl (Tracker.move A) t).At A (us.foldl (fun _ u => u.position) p)
      fun i => refreshPointFrom A i p (last i) us := by
  induction us generalizing t p last with
  | nil => exact ht
  | cons u us ih => exact ih (ht.move u)

/-- A tracker after its history. -/
theorem History.tracker_at (h : History α) (userHash : String) (time : ℤ) :
    (h.tracker A userHash time).At A h.current fun i => h.refreshPoint A i :=
  (at_move_new userHash time h.first).foldl_move h.rest

/-- When a tracker with the given history is subscribed to the publish channel that level `i` has at
a position: on a level below the length of the position's name the 4 m cube of the position is among
those around the point at which the tracker renewed the 4 m level; on a level above it, the cube at
the origin is among those around the point at which the tracker renewed that level. -/
def Covered (A : Arithmetic α) (a : Vector3 α) (i : ℕ) (h : History α) : Prop :=
  if i < (decompose A a 2).length then
    ∃ tmp ∈ surroundings A (h.refreshPoint A 0) 2, scale A tmp 2 = scale A a 2
  else ∃ tmp ∈ surroundings A (h.refreshPoint A i) (2 + 2 * i), scale A tmp (2 + 2 * i) = .zero

/-- The names that a tracker believes it is subscribed to, by level. -/
theorem Tracker.At.believes_iff (ht : t.At A p last) {c : String} :
    t.Believes c ↔ ∃ j < 6, ∃ tmp ∈ surroundings A (last j) (2 + 2 * j),
      c = name (quads (scale A tmp (2 + 2 * j)) (2 + 2 * j)) := by
  rw [Tracker.believes_iff]
  constructor
  · rintro ⟨j, level, hlevel, hc⟩
    rw [ht.spaces j level hlevel, ht.named.logscale j level hlevel, mem_surroundingSpaceNames] at hc
    exact ⟨j, ht.length ▸ (List.getElem?_eq_some_iff.mp hlevel).1, hc⟩
  · rintro ⟨j, hj, hc⟩
    have hlt : j < t.intervals.length := ht.length ▸ hj
    have hget := List.getElem?_eq_getElem hlt
    refine ⟨j, _, hget, ?_⟩
    rw [ht.spaces j _ hget, ht.named.logscale j _ hget, mem_surroundingSpaceNames]
    exact hc

/-- **Which levels meet**, for any arithmetic of coordinates and at any distance. -/
theorem believes_string_iff {a : Vector3 α} {lastA : ℕ → Vector3 α} {tA : Tracker}
    (hA : tA.At A a lastA) (hB : History α) (userHash : String) (time : ℤ) {level : Level}
    (hlevel : tA.intervals[i]? = some level) :
    (hB.tracker A userHash time).Believes level.string ↔ Covered A a i hB := by
  have hi : i < 6 := hA.length ▸ (List.getElem?_eq_some_iff.mp hlevel).1
  rw [(hB.tracker_at userHash time).believes_iff, hA.string i level hlevel,
    hA.named.logscale i level hlevel, channelString_eq, Covered]
  have hscale : ∀ (v : Vector3 α) (bias : ℤ), (scale A v bias).Forall IsInt32 :=
    forall_isInt32_scale
  split
  next =>
    -- a name of the 4 m cubes is a neighbour on that level only
    constructor
    · rintro ⟨j, -, tmp, htmp, hname⟩
      obtain ⟨hj, hcell⟩ := (name_quads_inj (hscale a 2) (hscale tmp _)).mp hname
      obtain rfl : j = 0 := by omega
      exact ⟨tmp, htmp, hcell.symm⟩
    · rintro ⟨tmp, htmp, hcell⟩
      exact ⟨0, by decide, tmp, htmp, (name_quads_inj (hscale a 2) (hscale tmp _)).mpr
        ⟨rfl, hcell.symm⟩⟩
  next =>
    constructor
    · rintro ⟨j, -, tmp, htmp, hname⟩
      obtain ⟨hj, hcell⟩ := (name_quads_eq_origin_iff (hscale tmp _)).mp hname.symm
      obtain rfl : j = i := by omega
      exact ⟨tmp, htmp, hcell⟩
    · rintro ⟨tmp, htmp, hcell⟩
      exact ⟨i, hi, tmp, htmp,
        ((name_quads_eq_origin_iff (hscale tmp _)).mpr ⟨rfl, hcell⟩).symm⟩

end At

/-- A level was renewed in the cube the tracker is in now, or where its name was short. -/
theorem refreshPointFrom_spec (i : ℕ) (us : List (Update α)) {p last : Vector3 α}
    (h : scale A last 2 = scale A p 2 ∨
      (decompose A last 2).length ≤ i ∧ (decompose A p 2).length ≤ i) :
    scale A (refreshPointFrom A i p last us) 2 =
        scale A (us.foldl (fun _ u => u.position) p) 2 ∨
      (decompose A (refreshPointFrom A i p last us) 2).length ≤ i := by
  induction us generalizing p last with
  | nil => exact h.imp_right And.left
  | cons u us ih =>
    rw [refreshPointFrom, List.foldl_cons]
    refine ih ?_
    split
    next => exact .inl rfl
    next hc =>
      rw [Crosses, not_and_or, not_or, not_lt, not_lt, not_not] at hc
      rcases hc with hsame | ⟨hp, hu⟩
      · -- the move stays in its cube
        rw [← hsame, length_decompose u.position, ← hsame, ← length_decompose]
        exact h
      · refine .inr ⟨?_, hu⟩
        rcases h with hcell | h
        · rwa [length_decompose, hcell, ← length_decompose]
        · exact h.1

theorem refreshPointFrom_of_forall {P : Vector3 α → Prop} (i : ℕ) {us : List (Update α)}
    (hus : ∀ u ∈ us, P u.position) {p last : Vector3 α} (hlast : P last) :
    P (refreshPointFrom A i p last us) := by
  induction us generalizing p last with
  | nil => exact hlast
  | cons u us ih =>
    obtain ⟨hu, hus⟩ := List.forall_mem_cons.mp hus
    refine ih hus ?_
    split
    next => exact hu
    next => exact hlast

theorem foldl_position_of_forall {P : Vector3 α → Prop} {us : List (Update α)}
    (hus : ∀ u ∈ us, P u.position) {p : Vector3 α} (hp : P p) :
    P (us.foldl (fun _ u => u.position) p) := by
  induction us generalizing p with
  | nil => exact hp
  | cons u us ih =>
    obtain ⟨hu, hus⟩ := List.forall_mem_cons.mp hus
    exact ih hus hu

/-! ### Distances -/

/-- On each axis at most three quarters of a cube apart. -/
def Near (logscale : ℤ) (a b : Vector3 ℚ) : Prop :=
  |a.x - b.x| ≤ 3 / 4 * 2 ^ logscale ∧ |a.y - b.y| ≤ 3 / 4 * 2 ^ logscale ∧
    |a.z - b.z| ≤ 3 / 4 * 2 ^ logscale

/-! ### Large levels -/

/-- Where the scaled coordinates of a position are not cut off at 32 bits. -/
def InRange (v : Vector3 ℚ) : Prop := v.Forall fun x => |x| < 2 ^ 33

/-- In range the coordinate of the 4 m cube is the quarter of the coordinate, cut. -/
theorem scale_coord {x : ℚ} (h : |x| < 2 ^ 33) :
    toInt32 (Arithmetic.exact.scaled 2 x) = truncate (x / 4) := by
  have hscaled : Arithmetic.exact.scaled 2 x = truncate (x / 4) := by
    simp only [Arithmetic.exact]
    norm_num [div_eq_mul_inv]
  have hle := abs_truncate_le (x / 4)
  rw [abs_div, abs_of_pos (by norm_num : (0 : ℚ) < 4)] at hle
  have hlt : |(truncate (x / 4) : ℚ)| < 2 ^ 31 := by linarith
  have hint : |truncate (x / 4)| < 2 ^ 31 := by exact_mod_cast hlt
  have hrange : IsInt32 (truncate (x / 4)) := by
    obtain ⟨hneg, hpos⟩ := abs_lt.mp hint
    exact ⟨hneg.le, hpos⟩
  rw [hscaled]
  exact (isInt32_toInt32 _).eq_of_modEq hrange (toInt32_modEq _)

/-- A coordinate of a position with a short name. -/
theorem coord_lt_of_length {x : ℚ} (h : |x| < 2 ^ 33) {n : ℕ}
    (hx : 3 * |toInt32 (Arithmetic.exact.scaled 2 x)| ≤ 2 * (4 ^ n - 1)) :
    3 * |x| < 2 * (4 * 4 ^ n) + 4 := by
  rw [scale_coord h] at hx
  have hcast : 3 * |(truncate (x / 4) : ℚ)| ≤ 2 * (4 ^ n - 1) := by exact_mod_cast hx
  have hlt := abs_lt_abs_truncate (x / 4)
  rw [abs_div, abs_of_pos (by norm_num : (0 : ℚ) < 4)] at hlt
  linarith

/-- Coordinates in the same 4 m cube. -/
theorem coord_lt_of_same {x y : ℚ} (hx : |x| < 2 ^ 33) (hy : |y| < 2 ^ 33)
    (h : toInt32 (Arithmetic.exact.scaled 2 x) = toInt32 (Arithmetic.exact.scaled 2 y)) :
    |x| < |y| + 4 := by
  rw [scale_coord hx, scale_coord hy] at h
  have hlt := abs_lt_of_truncate_eq h
  rw [abs_div, abs_div, abs_of_pos (by norm_num : (0 : ℚ) < 4)] at hlt
  linarith

/-- One of the three steps takes a coordinate that is less than seven quarters of a cube from the
origin into the cube at the origin. -/
theorem exists_step {x : ℚ} {bias : ℤ} (h : |x| < 7 / 4 * 2 ^ bias) :
    ∃ k ∈ steps, toInt32 (Arithmetic.exact.scaled bias (Arithmetic.exact.shifted bias k x)) = 0 := by
  have hpos : (0 : ℚ) < 2 ^ bias := by positivity
  have hcut : ∀ k : ℤ, |x + k * (2 ^ bias * 3 / 4)| < 2 ^ bias →
      toInt32 (Arithmetic.exact.scaled bias (Arithmetic.exact.shifted bias k x)) = 0 := by
    intro k hk
    have hzero : Arithmetic.exact.scaled bias (Arithmetic.exact.shifted bias k x) = 0 := by
      refine truncate_eq_zero ?_
      rw [Arithmetic.exact, zpow_neg, abs_mul, abs_inv, abs_of_pos hpos, ← div_eq_mul_inv,
        div_lt_one hpos]
      exact hk
    rw [hzero]
    rfl
  obtain ⟨hneg, hlt⟩ := abs_lt.mp h
  by_cases hhigh : (2 : ℚ) ^ bias ≤ x
  · refine ⟨-1, by decide, hcut _ (abs_lt.mpr ?_)⟩
    push_cast
    constructor <;> linarith
  by_cases hlow : x ≤ -(2 : ℚ) ^ bias
  · refine ⟨1, by decide, hcut _ (abs_lt.mpr ?_)⟩
    push_cast
    constructor <;> linarith
  · refine ⟨0, by decide, hcut _ (abs_lt.mpr ?_)⟩
    push_cast
    constructor <;> linarith [not_le.mp hhigh, not_le.mp hlow]

/-- The size of a level. -/
theorem two_zpow_level (i : ℕ) : (2 : ℚ) ^ (2 + 2 * (i : ℤ)) = 4 * 4 ^ i := by
  rw [zpow_add₀ (by norm_num), zpow_mul, zpow_natCast]
  norm_num

/-- One coordinate: `x` is that of the publisher, `y` that of the subscriber, and `z` that of the
point at which the subscriber renewed the level. -/
theorem coord_lt {x y z : ℚ} {i : ℕ} (hi : 1 ≤ i) (hx : |x| < 2 ^ 33) (hy : |y| < 2 ^ 33)
    (hz : |z| < 2 ^ 33) (hxy : |x - y| ≤ 3 / 4 * 2 ^ (2 + 2 * (i : ℤ)))
    (hshort : 3 * |toInt32 (Arithmetic.exact.scaled 2 x)| ≤ 2 * (4 ^ i - 1))
    (hpoint : toInt32 (Arithmetic.exact.scaled 2 z) = toInt32 (Arithmetic.exact.scaled 2 y) ∨
      3 * |toInt32 (Arithmetic.exact.scaled 2 z)| ≤ 2 * (4 ^ i - 1)) :
    |z| < 7 / 4 * 2 ^ (2 + 2 * (i : ℤ)) := by
  have hsize : (4 : ℚ) ≤ 4 ^ i := by
    simpa using pow_le_pow_right₀ (by norm_num : (1 : ℚ) ≤ 4) hi
  rw [two_zpow_level] at hxy ⊢
  rcases hpoint with hsame | hshort'
  · have hzy := coord_lt_of_same hz hy hsame
    have hx' := coord_lt_of_length hx hshort
    have hyx : |y| ≤ |x| + |x - y| := by
      have htri := abs_sub_abs_le_abs_sub y x
      rw [abs_sub_comm] at htri
      linarith
    linarith
  · have hz' := coord_lt_of_length hz hshort'
    linarith

/-- **Large levels meet.** In the range of 32 bits, a level that is too large for the name of the
publisher's position is covered by every history that ends near the publisher. -/
theorem covered_of_length_le {a : Vector3 ℚ} {hB : History ℚ} {i : ℕ} (hi : i < 6)
    (ha : InRange a) (hrange : ∀ u ∈ hB.first :: hB.rest, InRange u.position)
    (hlength : (decompose .exact a 2).length ≤ i) (hnear : Near (2 + 2 * i) a hB.current) :
    Covered .exact a i hB := by
  obtain ⟨hfirst, hrest⟩ := List.forall_mem_cons.mp hrange
  have hb : InRange hB.current := foldl_position_of_forall hrest hfirst
  have hr : InRange (hB.refreshPoint .exact i) := refreshPointFrom_of_forall i hrest hfirst
  have hpos := decompose_length_pos (A := .exact) a 2
  have hshort : ∀ {v : Vector3 ℚ}, (decompose .exact v 2).length ≤ i →
      ∀ c : Vector3 ℤ → ℤ, (∀ f v, c (Vector3.map f v) = f (c v)) → IsInt32 (c (scale .exact v 2)) →
        3 * |c (scale .exact v 2)| ≤ 2 * (4 ^ i - 1) := by
    intro v hv c hc hint
    rw [length_decompose] at hv
    exact three_mul_abs_le_of_length_quads hc hint (by omega) hv
  have hpoint : scale .exact (hB.refreshPoint .exact i) 2 = scale .exact hB.current 2 ∨
      (decompose .exact (hB.refreshPoint .exact i) 2).length ≤ i :=
    refreshPointFrom_spec i hB.rest (.inl rfl)
  have hcoord : ∀ (c : Vector3 ℤ → ℤ), (∀ f v, c (Vector3.map f v) = f (c v)) →
      (∀ v : Vector3 ℚ, IsInt32 (c (scale .exact v 2))) →
      3 * |c (scale .exact a 2)| ≤ 2 * (4 ^ i - 1) ∧
        (c (scale .exact (hB.refreshPoint .exact i) 2) = c (scale .exact hB.current 2) ∨
          3 * |c (scale .exact (hB.refreshPoint .exact i) 2)| ≤ 2 * (4 ^ i - 1)) :=
    fun c hc hint => ⟨hshort hlength c hc (hint a),
      hpoint.imp (congrArg c) fun h => hshort h c hc (hint _)⟩
  obtain ⟨hxa, hxr⟩ := hcoord Vector3.x (fun _ _ => rfl) fun v => (forall_isInt32_scale v 2).1
  obtain ⟨hya, hyr⟩ := hcoord Vector3.y (fun _ _ => rfl) fun v => (forall_isInt32_scale v 2).2.1
  obtain ⟨hza, hzr⟩ := hcoord Vector3.z (fun _ _ => rfl) fun v => (forall_isInt32_scale v 2).2.2
  obtain ⟨hnx, hny, hnz⟩ := hnear
  -- axis by axis, some step leads to the cube at the origin
  obtain ⟨kx, hkx, hx⟩ := exists_step (coord_lt (by omega) ha.1 hb.1 hr.1 hnx hxa hxr)
  obtain ⟨ky, hky, hy⟩ := exists_step (coord_lt (by omega) ha.2.1 hb.2.1 hr.2.1 hny hya hyr)
  obtain ⟨kz, hkz, hz⟩ := exists_step (coord_lt (by omega) ha.2.2 hb.2.2 hr.2.2 hnz hza hzr)
  rw [Covered, if_neg (not_lt.mpr hlength)]
  refine ⟨_, mem_surroundings.mpr ⟨kx, hkx, ky, hky, kz, hkz, rfl⟩, ?_⟩
  ext
  · exact hx
  · exact hy
  · exact hz

/-- **Mutual visibility.** In exact arithmetic and for any two histories: on every level on which
the trackers are near each other the one is subscribed to the publish channel of the other, if and
only if the position of the one is covered by the history of the other on all these levels. -/
theorem mutual_visibility_iff (hA hB : History ℚ) (userHashA userHashB : String)
    (timeA timeB : ℤ) :
    (∀ (i : ℕ) (level : Level), (hA.tracker .exact userHashA timeA).intervals[i]? = some level →
        Near level.logscale hA.current hB.current →
        (hB.tracker .exact userHashB timeB).Believes level.string) ↔
      ∀ i : ℕ, i < 6 → Near (2 + 2 * i) hA.current hB.current →
        Covered .exact hA.current i hB := by
  have hat := hA.tracker_at (A := .exact) userHashA timeA
  constructor
  · intro h i hi hnear
    have hlt : i < (hA.tracker .exact userHashA timeA).intervals.length := hat.length ▸ hi
    have hget := List.getElem?_eq_getElem hlt
    rw [← hat.named.logscale i _ hget] at hnear
    exact (believes_string_iff hat hB userHashB timeB hget).mp (h i _ hget hnear)
  · intro h i level hlevel hnear
    have hi : i < 6 := hat.length ▸ (List.getElem?_eq_some_iff.mp hlevel).1
    rw [hat.named.logscale i level hlevel] at hnear
    exact (believes_string_iff hat hB userHashB timeB hlevel).mpr (h i hi hnear)

/-- The history of a tracker that has one update. -/
def History.single (position : Vector3 ℚ) : History ℚ := ⟨⟨0, position, ⟨0, 0, 0⟩⟩, []⟩

/-- A tracker at 100 m publishes for the 16 m level on the name of its 4 m cube, which one at 112 m
is not subscribed to, though twelve meters are three quarters of 16 m. -/
theorem not_visible_at_twelve_meters :
    let hA := History.single ⟨100, 0, 0⟩
    let hB := History.single ⟨112, 0, 0⟩
    ¬ ∀ (i : ℕ) (level : Level), (hA.tracker .exact "a" 0).intervals[i]? = some level →
        Near level.logscale hA.current hB.current →
        (hB.tracker .exact "b" 0).Believes level.string := by
  intro hA hB h
  have hat := hA.tracker_at (A := .exact) "a" 0
  have hlt : 1 < (hA.tracker .exact "a" 0).intervals.length := by
    rw [hat.length]
    decide
  have hget := List.getElem?_eq_getElem hlt
  have hscale := hat.named.logscale 1 _ hget
  have hcurrentA : hA.current = ⟨100, 0, 0⟩ := rfl
  have hcurrentB : hB.current = ⟨112, 0, 0⟩ := rfl
  have hnear : Near (2 + 2 * (1 : ℕ)) hA.current hB.current := by
    rw [hcurrentA, hcurrentB]
    norm_num [Near]
  have hcovered := (believes_string_iff hat hB "b" 0 hget).mp
    (h 1 _ hget (by rw [hscale]; exact hnear))
  have hcell : scale .exact hA.current 2 = ⟨25, 0, 0⟩ := by
    rw [hcurrentA]
    norm_num [scale, Vector3.map, Arithmetic.exact, truncate]
    decide
  have hlength : 1 < (decompose .exact hA.current 2).length := by
    rw [length_decompose, hcell]
    decide
  rw [Covered, if_pos hlength, hcell] at hcovered
  obtain ⟨tmp, htmp, hx⟩ := hcovered
  obtain ⟨x, hsteps, y, -, z, -, rfl⟩ := mem_surroundings.mp htmp
  have hpoint : (hB.refreshPoint .exact 0).x = 112 := rfl
  have hx' : toInt32 (truncate ((112 + (x : ℚ) * (2 ^ (2 : ℤ) * 3 / 4)) * 2 ^ (-(2 : ℤ)))) = 25 :=
    congrArg Vector3.x hx
  simp only [steps, List.mem_cons, List.not_mem_nil, or_false] at hsteps
  rcases hsteps with rfl | rfl | rfl
  · norm_num [truncate] at hx'
    exact absurd hx' (by decide)
  · norm_num [truncate] at hx'
    exact absurd hx' (by decide)
  · norm_num [truncate] at hx'
    exact absurd hx' (by decide)

end QuadSpaces

end Gwems
