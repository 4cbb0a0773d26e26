import Gwems.Experiments.Doubles
import Gwems.Experiments.QuadSpacesLevels

/-!
# `QuadSpaces`: the cube that quads stand for

`decompose` scales by `Math.scalb(1, -bias)`, and `getMinMax` and `getMinCorner` by the power of
each quad. Where a `float` has all these powers, everything is as in exact arithmetic: the cube
contains the position unless the cast cut a negative number, and the larger cubes are those of the
next level unless a digit carries. On the levels above `2 ^ 127` meters no corner is a number, below
`2 ^ -127` every coordinate but zero goes to an end of the range of a `long`, and above `2 ^ 149`
every coordinate is zero.

* `decomposeContains_iff`: which positions are in their cubes;
* `nests_iff`: which lists of quads go on with the list of the next level.
-/

namespace Gwems

theorem Vector3.forall_and_iff {α : Type*} {P Q : α → Prop} {v : Vector3 α} :
    (v.Forall fun a => P a ∧ Q a) ↔ v.Forall P ∧ v.Forall Q := by
  constructor
  · rintro ⟨⟨hx, hx'⟩, ⟨hy, hy'⟩, hz, hz'⟩
    exact ⟨⟨hx, hy, hz⟩, hx', hy', hz'⟩
  · rintro ⟨⟨hx, hy, hz⟩, hx', hy', hz'⟩
    exact ⟨⟨hx, hx'⟩, ⟨hy, hy'⟩, hz, hz'⟩

/-- The arithmetic of the browser. -/
def Arithmetic.double : Arithmetic DoubleValue where
  scaled bias x := (x.mul (.pow (-bias))).truncate
  shifted bias k x :=
    x.add ((DoubleValue.finite k).mul ((DoubleValue.pow bias).mul (.finite (3 / 4))))

namespace Experiments

open QuadSpaces (Quad)

namespace InDoubles

/-! ### The source -/

/-- `(long) (v.x * power)` for all three coordinates. -/
def scale (v : Vector3d) (bias : ℤ) : Vector3 ℤ :=
  v.map fun x => ((DoubleValue.finite x.val).mul (.scalb (toInt32 (-bias)))).toLong

/-- `QuadSpaces.decompose(v, bias)`. -/
def decompose (v : Vector3d) (bias : ℤ) : List String :=
  (quads (scale v bias) bias).map Quad.toString

/-- The minimum of the cube of a quad. -/
def vmin (q : Quad) : Vector3 DoubleValue :=
  q.digits.map fun i : ℤ => (DoubleValue.finite i).mul (.scalb q.p)

/-- The maximum of the cube of a quad. -/
def vmax (q : Quad) : Vector3 DoubleValue :=
  q.digits.map fun i : ℤ => (DoubleValue.finite (i + 1 : ℤ)).mul (.scalb q.p)

/-- `QuadSpaces.getMinMax(s)`. -/
def getMinMax (s : String) : Except String (Vector3 DoubleValue × Vector3 DoubleValue) :=
  (parse s).map fun q => (vmin q, vmax q)

/-- `QuadSpaces.getMinCorner(s)`. -/
def getMinCorner (s : String) : Except String (Vector3 DoubleValue) := (parse s).map vmin

/-- `sum.add(v)`. -/
def add (sum v : Vector3 DoubleValue) : Vector3 DoubleValue :=
  ⟨sum.x.add v.x, sum.y.add v.y, sum.z.add v.z⟩

/-- `sum.add(getMinCorner(string))`. -/
def addMinCorner (sum : Vector3 DoubleValue) (string : String) :
    Except String (Vector3 DoubleValue) :=
  (getMinCorner string).map (add sum)

/-- `QuadSpaces.reconstitute(quadspaces)`. -/
def reconstitute (quadspaces : List String) : Except String (Vector3 DoubleValue) :=
  quadspaces.foldlM addMinCorner ((Vector3.zero : Vector3 ℚ).map .finite)

/-! ### Scaling -/

variable {v : Vector3d} {bias : ℤ}

/-- A `float` has the power. -/
theorem scale_of_mem (v : Vector3d) (h : -127 ≤ bias ∧ bias ≤ 149) :
    scale v bias = Experiments.scale v bias := by
  have hneg : toInt32 (-bias) = -bias :=
    (isInt32_toInt32 _).eq_of_modEq (by unfold IsInt32; omega) (toInt32_modEq _)
  rw [scale, Experiments.scale, hneg, DoubleValue.scalb_of_mem (by omega)]
  rfl

/-- What the cast makes of a product with an infinite power. -/
def extreme (x : ℚ) : ℤ := if x = 0 then 0 else if x < 0 then -2 ^ 63 else 2 ^ 63 - 1

/-- The power is infinite. -/
theorem scale_of_lt (v : Vector3d) (h : -2 ^ 31 < bias ∧ bias < -127) :
    scale v bias = v.map fun x => extreme x.val := by
  have hneg : toInt32 (-bias) = -bias :=
    (isInt32_toInt32 _).eq_of_modEq (by unfold IsInt32; omega) (toInt32_modEq _)
  have hcoord : ∀ x : Double, ((DoubleValue.finite x.val).mul (.scalb (-bias))).toLong =
      extreme x.val := by
    intro x
    rw [DoubleValue.scalb_of_lt (by omega), DoubleValue.toLong_mul_infinity, extreme]
  rw [scale, hneg]
  exact Vector3.ext (hcoord _) (hcoord _) (hcoord _)

/-- The power is zero, also for the smallest `int`, which is its own negative. -/
theorem scale_of_gt (v : Vector3d) (hbias : IsInt32 bias) (h : 149 < bias ∨ bias = -2 ^ 31) :
    scale v bias = .zero := by
  have hsmall : toInt32 (-bias) < -149 := by
    have hint := isInt32_toInt32 (-bias)
    have hmod := toInt32_modEq (-bias)
    rw [IsInt32] at hbias hint
    rw [Int.ModEq] at hmod
    omega
  have hcoord : ∀ x : Double,
      ((DoubleValue.finite x.val).mul (.scalb (toInt32 (-bias)))).toLong = 0 := by
    intro x
    rw [DoubleValue.scalb_of_gt hsmall, DoubleValue.mul, mul_zero]
    rfl
  exact Vector3.ext (hcoord _) (hcoord _) (hcoord _)

theorem forall_isInt64_scale (v : Vector3d) (bias : ℤ) : (scale v bias).Forall IsInt64 :=
  ⟨DoubleValue.isInt64_toLong _, DoubleValue.isInt64_toLong _, DoubleValue.isInt64_toLong _⟩

theorem length_quads_scale_le (v : Vector3d) (bias : ℤ) :
    (quads (scale v bias) bias).length ≤ 33 := by
  have hcoord : ∀ n : ℤ, IsInt64 n → |n| ≤ 4 ^ 32 := by
    intro n hn
    rw [IsInt64] at hn
    rw [abs_le]
    omega
  obtain ⟨hx, hy, hz⟩ := forall_isInt64_scale v bias
  exact length_quads_le ⟨hcoord _ hx, hcoord _ hy, hcoord _ hz⟩

end InDoubles

/-! ### Adding corners -/

section Corners

variable {v : Vector3 ℤ} {p : ℤ} {qs : List Quad}

/-- Quads are read as they were written, one after the other. -/
theorem foldlM_parse {β : Type*} (f : β → Quad → β)
    (hqs : ∀ q ∈ qs, (q.digits.Forall fun d => -2 ≤ d ∧ d ≤ 1) ∧ IsInt32 q.p) (b : β) :
    (qs.map Quad.toString).foldlM (fun b s => (parse s).map (f b)) b = .ok (qs.foldl f b) := by
  induction qs generalizing b with
  | nil => rfl
  | cons q qs ih =>
    obtain ⟨hq, hqs⟩ := List.forall_mem_cons.mp hqs
    rw [List.map_cons, List.foldlM_cons, parse_toString hq.1 hq.2, List.foldl_cons, ← ih hqs]
    rfl

/-- Reading a quad and adding its corner. -/
theorem addMinCorner_eq : addMinCorner = fun sum s => (parse s).map fun q => sum.add (vmin q) := by
  funext sum s
  rw [addMinCorner, getMinCorner]
  cases parse s <;> rfl

/-- The number that the quads of a `long` stand for. -/
def readBack (n : ℤ) : ℤ := signedDigit n + 4 * shiftOut n

theorem readBack_of_mem {n : ℤ} (h : -2 ^ 63 ≤ n ∧ n ≤ 2 ^ 63 - 3) : readBack n = n := by
  rw [readBack, shiftOut_eq_signedCarry h, signedDigit_add_signedCarry]

/-- The corners of the quads of any `long`s add up. -/
theorem foldlM_quads_readBack (hp : IsInt32 p) (hfits : p + 2 * (quads v p).length ≤ 2 ^ 31 + 1)
    (sum : Vector3 ℚ) : ((quads v p).map Quad.toString).foldlM addMinCorner sum =
      .ok (sum.add (corner (v.map readBack) p)) := by
  obtain ⟨heq, hrest⟩ := quads_turn hp hfits
  have hfirst : addMinCorner sum (⟨v.map signedDigit, p⟩ : Quad).toString =
      .ok (sum.add (vmin ⟨v.map signedDigit, p⟩)) := by
    rw [addMinCorner, getMinCorner, parse_toString
      ⟨signedDigit_mem _, signedDigit_mem _, signedDigit_mem _⟩ hp]
    rfl
  have hpower : scalb (p + 2) = scalb p * 4 := by
    rw [scalb, scalb, zpow_add₀ (by decide)]
    norm_num
  have hsum : (sum.add (vmin ⟨v.map signedDigit, p⟩)).add (corner (v.map shiftOut) (p + 2)) =
      sum.add (corner (v.map readBack) p) := by
    have hcoord : ∀ (n : ℤ) (a : ℚ), a + signedDigit n * scalb p + shiftOut n * scalb (p + 2) =
        a + readBack n * scalb p := by
      intro n a
      rw [hpower, readBack]
      push_cast
      ring
    exact Vector3.ext (hcoord _ _) (hcoord _ _) (hcoord _ _)
  have hmem : ∀ n, -2 ^ 63 ≤ shiftOut n ∧ shiftOut n ≤ 2 ^ 63 - 3 := by
    intro n
    have hspec := toInt64_spec (n + 2)
    rw [shiftOut_eq]
    omega
  rw [heq, List.map_cons, List.foldlM_cons, hfirst]
  change List.foldlM addMinCorner _ _ = _
  rw [← hsum]
  split
  next h =>
    rw [h]
    simp [corner, Vector3.add, Vector3.map, Vector3.zero, pure, Except.pure]
  next h => exact foldlM_quads (hrest h).1 (hrest h).2 ⟨hmem _, hmem _, hmem _⟩ _

/-- The largest exponent is that of the last quad. -/
theorem forall_p_le_iff (hp : IsInt32 p) (hfits : p + 2 * (quads v p).length ≤ 2 ^ 31 + 1) {m : ℤ} :
    (∀ q ∈ quads v p, q.p ≤ m) ↔ p + 2 * (quads v p).length ≤ m + 2 := by
  have hpos := List.length_pos_of_ne_nil (quads_ne_nil v p)
  have hmap : (∀ q ∈ quads v p, q.p ≤ m) ↔ ∀ e ∈ (quads v p).map Quad.p, e ≤ m := by
    rw [List.forall_mem_map]
  rw [hmap, map_p_quads hp hfits, List.forall_mem_map]
  simp only [List.mem_range]
  constructor
  · intro h
    have hlast := h ((quads v p).length - 1) (by omega)
    omega
  · intro h k hk
    omega

/-- No exponent is smaller than the first. -/
theorem le_p_of_mem (hp : IsInt32 p) (hfits : p + 2 * (quads v p).length ≤ 2 ^ 31 + 1) :
    ∀ q ∈ quads v p, p ≤ q.p := by
  intro q hq
  have hmem := List.mem_map_of_mem (f := Quad.p) hq
  rw [map_p_quads hp hfits] at hmem
  obtain ⟨k, -, hk⟩ := List.mem_map.mp hmem
  omega

/-- A number that `k` digits between minus two and one can stand for. -/
def OfDigits (k : ℕ) (n : ℤ) : Prop := -2 * (4 ^ k - 1) ≤ 3 * n ∧ 3 * n ≤ 4 ^ k - 1

theorem ofDigits_one_iff {n : ℤ} : OfDigits 1 n ↔ signedCarry n = 0 := by
  rw [OfDigits, signedCarry]
  omega

theorem ofDigits_succ_iff {k : ℕ} {n : ℤ} : OfDigits (k + 1) n ↔ OfDigits k (signedCarry n) := by
  -- a power of four is one more than a multiple of three
  obtain ⟨m, hm⟩ : ∃ m : ℤ, (4 : ℤ) ^ k = 3 * m + 1 := by
    have hmod : (4 : ℤ) ^ k ≡ 1 ^ k [ZMOD 3] := Int.ModEq.pow k (by decide)
    rw [one_pow, Int.ModEq] at hmod
    exact ⟨4 ^ k / 3, by omega⟩
  rw [OfDigits, OfDigits, pow_succ, hm, signedCarry]
  omega

theorem length_quads_le_succ_iff (k : ℕ) (hv : v.Forall fun n => -2 ^ 63 ≤ n ∧ n ≤ 2 ^ 63 - 3) :
    (quads v p).length ≤ k + 1 ↔
      v.map signedCarry = .zero ∨ (quads (v.map signedCarry) (toInt32 (p + 2))).length ≤ k := by
  have hshift : v.map shiftOut = v.map signedCarry :=
    Vector3.ext (shiftOut_eq_signedCarry hv.1) (shiftOut_eq_signedCarry hv.2.1)
      (shiftOut_eq_signedCarry hv.2.2)
  rw [quads_eq, List.length_cons, hshift]
  split
  next h => simp [h]
  next h => rw [or_iff_right h, Nat.add_le_add_iff_right]

/-- The number of quads is the number of digits that the numbers need. -/
theorem length_quads_le_iff (k : ℕ) (hv : v.Forall fun n => -2 ^ 63 ≤ n ∧ n ≤ 2 ^ 63 - 3) :
    (quads v p).length ≤ k + 1 ↔ v.Forall (OfDigits (k + 1)) := by
  rw [length_quads_le_succ_iff k hv]
  induction k generalizing v p with
  | zero =>
    have hempty : ¬(quads (v.map signedCarry) (toInt32 (p + 2))).length ≤ 0 := by
      rw [Nat.le_zero, List.length_eq_zero_iff]
      exact quads_ne_nil _ _
    rw [or_iff_left hempty, Vector3.ext_iff]
    exact and_congr ofDigits_one_iff.symm (and_congr ofDigits_one_iff.symm ofDigits_one_iff.symm)
  | succ k ih =>
    have hcarry : (v.map signedCarry).Forall fun n => -2 ^ 63 ≤ n ∧ n ≤ 2 ^ 63 - 3 := by
      simp only [Vector3.Forall, Vector3.map, signedCarry] at hv ⊢
      omega
    have hdigits : v.Forall (OfDigits (k + 1 + 1)) ↔
        (v.map signedCarry).Forall (OfDigits (k + 1)) :=
      and_congr ofDigits_succ_iff (and_congr ofDigits_succ_iff ofDigits_succ_iff)
    rw [length_quads_le_succ_iff k hcarry, ih hcarry, hdigits, or_iff_right_iff_imp]
    intro hzero
    rw [hzero]
    have hpower : (1 : ℤ) ≤ 4 ^ (k + 1) := one_le_pow₀ (by decide)
    have horigin : OfDigits (k + 1) 0 := by
      rw [OfDigits]
      omega
    exact ⟨horigin, horigin, horigin⟩

end Corners

/-! ### The cube of a position -/

namespace InDoubles

/-- The cube that a list of quads denotes: its minimum corner is that of all quads together, and its
side that of the first quad. -/
def IsCube (quadspaces : List String) (corner side : Vector3 ℚ) : Prop :=
  reconstitute quadspaces = .ok (corner.map .finite) ∧
    ∃ (s : String) (min max : Vector3 ℚ), quadspaces.head? = some s ∧
      getMinMax s = .ok (min.map .finite, max.map .finite) ∧ max = min.add side

/-- What `decompose` gives for a position is a cube around it. -/
def DecomposeContains (v : Vector3d) (bias : ℤ) : Prop :=
  ∃ corner, IsCube (decompose v bias) corner (sideOf bias) ∧ Contains corner (sideOf bias) v

variable {v : Vector3d} {bias : ℤ} {qs : List Quad}

theorem addMinCorner_eq_add : addMinCorner = fun sum s =>
    (parse s).map fun q => add sum (vmin q) := by
  funext sum s
  rw [addMinCorner, getMinCorner]
  cases parse s <;> rfl

theorem map_finite_injective {a b : Vector3 ℚ}
    (h : a.map DoubleValue.finite = b.map DoubleValue.finite) : a = b := by
  obtain ⟨hx, hy, hz⟩ := Vector3.ext_iff.mp h
  exact Vector3.ext (DoubleValue.finite.inj hx) (DoubleValue.finite.inj hy)
    (DoubleValue.finite.inj hz)

/-- Corners are added as in exact arithmetic where a `float` has the powers. -/
theorem foldl_finite (hqs : ∀ q ∈ qs, -149 ≤ q.p ∧ q.p ≤ 127) (sum : Vector3 ℚ) :
    qs.foldl (fun sum q => add sum (vmin q)) (sum.map .finite) =
      (qs.foldl (fun sum q => sum.add (Experiments.vmin q)) sum).map .finite := by
  induction qs generalizing sum with
  | nil => rfl
  | cons q qs ih =>
    obtain ⟨hq, hqs⟩ := List.forall_mem_cons.mp hqs
    have hadd : add (sum.map .finite) (vmin q) =
        (sum.add (Experiments.vmin q)).map .finite := by
      rw [vmin, DoubleValue.scalb_of_mem hq]
      rfl
    rw [List.foldl_cons, List.foldl_cons, hadd, ih hqs]

/-- A sum is a number only where a `float` has the powers. -/
theorem le_of_foldl_finite {sum : Vector3 DoubleValue} {c : ℚ}
    (h : (qs.foldl (fun sum q => add sum (vmin q)) sum).x = .finite c) :
    (∃ y, sum.x = .finite y) ∧ ∀ q ∈ qs, q.p ≤ 127 := by
  induction qs generalizing sum with
  | nil => exact ⟨⟨c, h⟩, nofun⟩
  | cons q qs ih =>
    obtain ⟨⟨y, hy⟩, hqs⟩ := ih h
    obtain ⟨a, b, ha, hb, -⟩ := DoubleValue.add_eq_finite hy
    refine ⟨⟨a, ha⟩, List.forall_mem_cons.mpr ⟨?_, hqs⟩⟩
    by_contra hlarge
    have hinfinite : (vmin q).x = (DoubleValue.finite q.digits.x).mul (.infinity false) := by
      rw [← DoubleValue.scalb_of_lt (not_le.mp hlarge)]
      rfl
    exact DoubleValue.mul_infinity_ne_finite (hinfinite.symm.trans hb)

section Quads

variable (hfits : bias + 2 * (quads (scale v bias) bias).length ≤ 2 ^ 31 + 1)

include hfits

theorem reconstitute_eq (hbias : IsInt32 bias) : reconstitute (decompose v bias) =
    .ok ((quads (scale v bias) bias).foldl (fun sum q => add sum (vmin q))
      ((Vector3.zero : Vector3 ℚ).map .finite)) := by
  rw [reconstitute, addMinCorner_eq_add]
  refine foldlM_parse (fun sum q => add sum (vmin q)) (fun q hq => ⟨digits_quads _ _ q hq, ?_⟩) _
  have hp := (forall_p_le_iff hbias hfits (m := 2 ^ 31 - 1)).mpr (by omega) q hq
  have hle := le_p_of_mem hbias hfits q hq
  rw [IsInt32] at hbias ⊢
  omega

/-- The corners of the quads add up to a number exactly if a `float` has their powers. -/
theorem reconstitute_eq_iff (hbias : IsInt32 bias) (hlow : -149 ≤ bias) {c : Vector3 ℚ} :
    reconstitute (decompose v bias) = .ok (c.map .finite) ↔
      (∀ q ∈ quads (scale v bias) bias, q.p ≤ 127) ∧
        c = corner ((scale v bias).map readBack) bias := by
  have hexact : (∀ q ∈ quads (scale v bias) bias, q.p ≤ 127) →
      reconstitute (decompose v bias) =
        .ok ((corner ((scale v bias).map readBack) bias).map .finite) := by
    intro hp
    have hle := le_p_of_mem hbias hfits
    have hsum := foldlM_quads_readBack hbias hfits .zero
    have hparse := foldlM_parse (fun sum q => Vector3.add sum (Experiments.vmin q))
      (fun q (hq : q ∈ quads (scale v bias) bias) => ⟨digits_quads _ _ q hq, by
        have hq' := hp q hq
        have hq'' := hle q hq
        rw [IsInt32]
        omega⟩) .zero
    have hzero : (Vector3.zero : Vector3 ℚ).add (corner ((scale v bias).map readBack) bias) =
        corner ((scale v bias).map readBack) bias := by
      simp [Vector3.add, Vector3.zero]
    rw [reconstitute_eq hfits hbias,
      foldl_finite fun q hq => ⟨hlow.trans (hle q hq), hp q hq⟩]
    rw [hzero, addMinCorner_eq] at hsum
    exact congrArg (fun c => Except.ok (c.map DoubleValue.finite))
      (Except.ok.inj (hparse.symm.trans hsum))
  constructor
  · intro h
    have hfold := Except.ok.inj ((reconstitute_eq hfits hbias).symm.trans h)
    have hp := (le_of_foldl_finite (congrArg Vector3.x hfold)).2
    exact ⟨hp, map_finite_injective (Except.ok.inj (h.symm.trans (hexact hp)))⟩
  · rintro ⟨hp, rfl⟩
    exact hexact hp

end Quads

theorem fits (v : Vector3d) (hbias : bias ≤ 149) :
    bias + 2 * (quads (scale v bias) bias).length ≤ 2 ^ 31 + 1 := by
  have hlength := length_quads_scale_le v bias
  omega

/-- A list of quads denotes a cube exactly if a `float` has the powers of all its quads. -/
theorem isCube_iff (hbias : IsInt32 bias) {c : Vector3 ℚ} :
    IsCube (decompose v bias) c (sideOf bias) ↔
      -149 ≤ bias ∧ bias + 2 * (quads (scale v bias) bias).length ≤ 129 ∧
        c = corner ((scale v bias).map readBack) bias := by
  have hpos := List.length_pos_of_ne_nil (quads_ne_nil (scale v bias) bias)
  let q : Quad := ⟨(scale v bias).map signedDigit, bias⟩
  have hhead : (decompose v bias).head? = some q.toString := by
    rw [decompose, quads_eq]
    rfl
  have hread : getMinMax q.toString = .ok (vmin q, vmax q) := by
    rw [getMinMax, parse_toString ⟨signedDigit_mem _, signedDigit_mem _, signedDigit_mem _⟩ hbias]
    rfl
  have hlarge : 127 < bias → ¬IsCube (decompose v bias) c (sideOf bias) := by
    rintro h ⟨-, s, min, max, hs, hminmax, -⟩
    obtain rfl := Option.some.inj (hhead.symm.trans hs)
    have hmin := congrArg Vector3.x (Prod.ext_iff.mp
      (Except.ok.inj (hread.symm.trans hminmax))).1
    have hinfinite : (vmin q).x = (DoubleValue.finite q.digits.x).mul (.infinity false) := by
      rw [← DoubleValue.scalb_of_lt h]
      rfl
    exact DoubleValue.mul_infinity_ne_finite (hinfinite.symm.trans hmin)
  have hsmall : bias < -149 → ¬IsCube (decompose v bias) c (sideOf bias) := by
    rintro h ⟨-, s, min, max, hs, hminmax, hside⟩
    obtain rfl := Option.some.inj (hhead.symm.trans hs)
    obtain ⟨hmin, hmax⟩ := Prod.ext_iff.mp (Except.ok.inj (hread.symm.trans hminmax))
    have hflat : ∀ n : ℤ, (DoubleValue.finite n).mul (.scalb bias) = .finite 0 := by
      intro n
      rw [DoubleValue.scalb_of_gt h, DoubleValue.mul, mul_zero]
    -- both ends of the cube are at the origin
    have hx : min.x = 0 :=
      DoubleValue.finite.inj ((congrArg Vector3.x hmin).symm.trans (hflat _))
    have hx' : max.x = 0 :=
      DoubleValue.finite.inj ((congrArg Vector3.x hmax).symm.trans (hflat _))
    have hzero := congrArg Vector3.x hside
    rw [Vector3.add, hx, hx', zero_add] at hzero
    exact absurd hzero.symm (zpow_ne_zero _ (by decide))
  by_cases hmem : -149 ≤ bias ∧ bias ≤ 127
  · have hlength := fits v (hmem.2.trans (by decide))
    rw [IsCube, reconstitute_eq_iff hlength hbias hmem.1, forall_p_le_iff hbias hlength,
      and_iff_right hmem.1]
    refine and_iff_left ⟨q.toString, Experiments.vmin q, Experiments.vmax q, hhead, ?_, ?_⟩
    · rw [hread, vmin, vmax, DoubleValue.scalb_of_mem hmem]
      rfl
    · have hside : ∀ i : ℤ, ((i + 1 : ℤ) : ℚ) * Gwems.scalb bias =
          i * Gwems.scalb bias + Gwems.scalb bias := by
        intro i
        push_cast
        ring
      exact Vector3.ext (hside _) (hside _) (hside _)
  · rcases not_and_or.mp hmem with h | h
    · exact iff_of_false (hsmall (not_le.mp h)) fun hc => h hc.1
    · exact iff_of_false (hlarge (not_le.mp h)) fun hc => by omega

/-- When a coordinate is in the cube: a `float` has the powers of the quads, and either the cast has
not cut a negative number, or the number is the one that the cast makes of an infinite product. -/
def Contained (bias : ℤ) (x : ℚ) : Prop :=
  if bias < -149 ∨ 127 < bias then False
  else if bias < -127 then
    x = 0 ∨ -2 ^ 63 * Gwems.scalb bias ≤ x ∧ x < (-2 ^ 63 + 1) * Gwems.scalb bias
  else
    OfDigits ((129 - bias) / 2).toNat (cell bias x) ∧
      (0 ≤ x ∨ ∃ n : ℤ, x = n * Gwems.scalb bias)

/-- The cube of an infinite product. -/
theorem extreme_le_and_lt_iff (bias : ℤ) (x : ℚ) :
    (readBack (extreme x) * Gwems.scalb bias ≤ x ∧
      x < readBack (extreme x) * Gwems.scalb bias + Gwems.scalb bias) ↔
      x = 0 ∨ -2 ^ 63 * Gwems.scalb bias ≤ x ∧ x < (-2 ^ 63 + 1) * Gwems.scalb bias := by
  have hpos : (0 : ℚ) < Gwems.scalb bias := zpow_pos (by decide) _
  have hlow : readBack (-2 ^ 63) = -2 ^ 63 := by decide
  have hhigh : readBack (2 ^ 63 - 1) = -2 ^ 63 - 1 := by decide
  rw [extreme]
  split
  next h =>
    have hzero : readBack 0 = 0 := rfl
    simp [h, hzero, hpos]
  next h =>
    rw [or_iff_right h]
    split
    next hneg =>
      rw [hlow, add_mul, one_mul]
      norm_num
    next hneg =>
      -- the number has wrapped around, and the cube is on the other side of the origin
      have hx : 0 < x := lt_of_le_of_ne (not_lt.mp hneg) (Ne.symm h)
      rw [hhigh]
      push_cast
      constructor
      · rintro ⟨-, hlt⟩
        nlinarith
      · rintro ⟨-, hlt⟩
        nlinarith

/-- **A cube contains its positions**, exactly those of which every coordinate is contained: on the
levels from `2 ^ -127` to `2 ^ 127` meters those that have no negative coordinate between two cubes,
as such a coordinate is rounded up, to the cube beside its own. -/
theorem decomposeContains_iff (hbias : IsInt32 bias) (hv : v.Forall fun x => InRange bias x.val) :
    DecomposeContains v bias ↔ v.Forall fun x => Contained bias x.val := by
  have hcontains : DecomposeContains v bias ↔
      (-149 ≤ bias ∧ bias + 2 * (quads (scale v bias) bias).length ≤ 129) ∧
        Contains (corner ((scale v bias).map readBack) bias) (sideOf bias) v := by
    constructor
    · rintro ⟨c, hcube, hmem⟩
      obtain ⟨hlow, hlength, rfl⟩ := (isCube_iff hbias).mp hcube
      exact ⟨⟨hlow, hlength⟩, hmem⟩
    · rintro ⟨⟨hlow, hlength⟩, hmem⟩
      exact ⟨_, (isCube_iff hbias).mpr ⟨hlow, hlength, rfl⟩, hmem⟩
  have hpos := List.length_pos_of_ne_nil (quads_ne_nil (scale v bias) bias)
  rw [hcontains]
  simp only [Contained]
  by_cases hout : bias < -149 ∨ 127 < bias
  · simp only [if_pos hout]
    refine iff_of_false ?_ fun h => h.1
    rintro ⟨⟨hlow, hlength⟩, -⟩
    omega
  by_cases hinfinite : bias < -127
  · have hlength := length_quads_scale_le v bias
    simp only [if_neg hout, if_pos hinfinite]
    rw [and_iff_right ⟨by omega, by omega⟩, scale_of_lt v ⟨by omega, hinfinite⟩]
    exact and_congr (extreme_le_and_lt_iff _ _)
      (and_congr (extreme_le_and_lt_iff _ _) (extreme_le_and_lt_iff _ _))
  · have hscale : scale v bias = v.map fun x => cell bias x.val := by
      rw [scale_of_mem v (by omega)]
      exact scale_eq hbias ⟨hv.1.isInt64, hv.2.1.isInt64, hv.2.2.isInt64⟩
    have hcells : (v.map fun x => cell bias x.val).Forall fun n =>
        -2 ^ 63 ≤ n ∧ n ≤ 2 ^ 63 - 3 := hv
    have hback : (v.map fun x => cell bias x.val).map readBack = v.map fun x => cell bias x.val :=
      Vector3.ext (readBack_of_mem hv.1) (readBack_of_mem hv.2.1) (readBack_of_mem hv.2.2)
    obtain ⟨k, hk⟩ : ∃ k : ℕ, (129 - bias) / 2 = k + 1 :=
      ⟨((129 - bias) / 2 - 1).toNat, by omega⟩
    have hdigits : bias + 2 * (quads (v.map fun x => cell bias x.val) bias).length ≤ 129 ↔
        (v.map fun x => cell bias x.val).Forall (OfDigits (k + 1)) := by
      rw [← length_quads_le_iff (p := bias) k hcells]
      omega
    have htoNat : ((129 - bias) / 2).toNat = k + 1 := by omega
    simp only [if_neg hout, if_neg hinfinite, htoNat]
    rw [hscale, hback, hdigits, and_iff_right (show -149 ≤ bias by omega)]
    have hcube : Contains (corner (v.map fun x => cell bias x.val) bias) (sideOf bias) v ↔
        v.Forall fun x => 0 ≤ x.val ∨ ∃ n : ℤ, x.val = n * Gwems.scalb bias :=
      and_congr (cell_mul_le_and_lt_iff _ _) (and_congr (cell_mul_le_and_lt_iff _ _)
        (cell_mul_le_and_lt_iff _ _))
    have hboth := Vector3.forall_and_iff (v := v) (P := fun x => OfDigits (k + 1) (cell bias x.val))
      (Q := fun x => 0 ≤ x.val ∨ ∃ n : ℤ, x.val = n * Gwems.scalb bias)
    rw [hcube]
    exact hboth.symm

/-- A position half a meter to the left of the origin. -/
def left : Vector3d :=
  { Vector3d.ofInts Vector3.zero QuadSpaces.isInt32_zero with
    x := .ofInt (-1) 1 (by decide) (by decide) }

theorem cell_left : left.Forall fun x => cell 0 x.val = 0 := by
  refine ⟨truncate_eq_zero ?_, truncate_eq_zero ?_, truncate_eq_zero ?_⟩
  · norm_num [left, Double.ofInt, scalb, abs_lt]
  · norm_num [left, Vector3d.ofInts, Vector3.zero, Double.ofInt, scalb]
  · norm_num [left, Vector3d.ofInts, Vector3.zero, Double.ofInt, scalb]

theorem inRange_left : left.Forall fun x => InRange 0 x.val := by
  have hzero : ∀ x : Double, cell 0 x.val = 0 → InRange 0 x.val := by
    intro x hx
    rw [InRange, hx]
    decide
  exact ⟨hzero _ cell_left.1, hzero _ cell_left.2.1, hzero _ cell_left.2.2⟩

theorem decomposeContains_iff_left :
    DecomposeContains left 0 ↔ left.Forall fun x => Contained 0 x.val :=
  decomposeContains_iff (by decide) inRange_left

/-- That position is not in its cube, which begins at the origin. -/
theorem not_forall_contains : ¬∀ (bias : ℤ) (v : Vector3d), IsInt32 bias → Even bias →
    (v.Forall fun x => InRange bias x.val) → DecomposeContains v bias := by
  intro hall
  obtain ⟨c, hcube, hmem⟩ := hall 0 left (by decide) Even.zero inRange_left
  obtain ⟨-, -, rfl⟩ := (isCube_iff (by decide)).mp hcube
  have hscale : scale left 0 = left.map fun x => cell 0 x.val := by
    rw [scale_of_mem left (by decide)]
    exact scale_eq (by decide)
      ⟨inRange_left.1.isInt64, inRange_left.2.1.isInt64, inRange_left.2.2.isInt64⟩
  have hle := hmem.1.1
  rw [hscale, corner, Vector3.map, Vector3.map, Vector3.map, cell_left.1] at hle
  norm_num [left, Double.ofInt, readBack, signedDigit] at hle

/-! ### The next level -/

theorem shiftOut_eq_zero_iff {n : ℤ} (hn : IsInt64 n) : shiftOut n = 0 ↔ -2 ≤ n ∧ n ≤ 1 := by
  have hsum := toInt64_spec (n + 2)
  rw [shiftOut_eq]
  rw [IsInt64] at hn
  omega

/-- A list goes on with that of the next level if this starts from what the loop shifts out. -/
theorem nests_iff_shiftOut (v : Vector3d) (hbias : IsInt32 (bias + 2)) :
    Nests (decompose v) bias ↔
      (scale v bias).map shiftOut = .zero ∨ (scale v bias).map shiftOut = scale v (bias + 2) :=
  nests_iff_of_turn quads_eq (fun _ => (isInt32_toInt32 _).eq_of_modEq hbias (toInt32_modEq _))
    (quads_injective ⟨isInt64_shiftOut _, isInt64_shiftOut _, isInt64_shiftOut _⟩
      (forall_isInt64_scale v _))

theorem nests_of_scale_eq_zero (hzero : scale v bias = .zero) : Nests (decompose v) bias := by
  intro hlength
  have hend : (Vector3.zero : Vector3 ℤ).map shiftOut = .zero := rfl
  rw [decompose, List.length_map, hzero, quads_eq, if_pos hend] at hlength
  exact absurd hlength (lt_irrefl 1)

/-- When the larger cube of a coordinate on the server is the one that the name goes on with: if the
last digit does not carry, where a `float` has the powers for both levels, and otherwise if the
number that the cast makes of an infinite product, or of the zero that a product with no power is,
goes with the other level. -/
def Nested (bias : ℤ) (x : ℚ) : Prop :=
  if bias < -129 then x = 0
  else if bias < -127 then x = 0 ∨ cell (bias + 2) x = -2 ^ 61
  else if bias ≤ 147 then DropsDigit (cell bias x)
  else if bias ≤ 149 then -2 ≤ cell bias x ∧ cell bias x ≤ 1
  else True

theorem extreme_zero : extreme 0 = 0 := rfl

theorem shiftOut_extreme {x : ℚ} (hx : x ≠ 0) : shiftOut (extreme x) = -2 ^ 61 := by
  rw [extreme, if_neg hx]
  split <;> decide

theorem eq_zero_of_shiftOut_extreme {x : ℚ} (h : shiftOut (extreme x) = 0) : x = 0 := by
  by_contra hne
  rw [shiftOut_extreme hne] at h
  exact absurd h (by decide)

/-- The products are infinite on both levels. -/
theorem nests_iff_of_infinite (v : Vector3d) (h : -2 ^ 31 < bias ∧ bias < -129) :
    Nests (decompose v) bias ↔ v.Forall fun x => x.val = 0 := by
  have hsame : ∀ x : ℚ, shiftOut (extreme x) = extreme x → x = 0 := by
    intro x hx
    by_contra hne
    rw [shiftOut_extreme hne, extreme, if_neg hne] at hx
    split at hx <;> exact absurd hx (by decide)
  rw [nests_iff_shiftOut v (by unfold IsInt32; omega), scale_of_lt v ⟨h.1, by omega⟩,
    scale_of_lt v ⟨by omega, by omega⟩]
  constructor
  · rintro (hzero | hnext)
    · obtain ⟨hx, hy, hz⟩ := Vector3.ext_iff.mp hzero
      exact ⟨eq_zero_of_shiftOut_extreme hx, eq_zero_of_shiftOut_extreme hy,
        eq_zero_of_shiftOut_extreme hz⟩
    · obtain ⟨hx, hy, hz⟩ := Vector3.ext_iff.mp hnext
      exact ⟨hsame _ hx, hsame _ hy, hsame _ hz⟩
  · rintro ⟨hx, hy, hz⟩
    left
    simp only [Vector3.map, hx, hy, hz, extreme_zero, shiftOut_zero]
    rfl

/-- The products are infinite on the smaller level. -/
theorem nests_iff_of_half_infinite (h : -129 ≤ bias ∧ bias < -127)
    (hv : v.Forall fun x => IsInt64 (cell bias x.val)) :
    Nests (decompose v) bias ↔
      v.Forall fun x => x.val = 0 ∨ cell (bias + 2) x.val = -2 ^ 61 := by
  have hcells : ∀ x : Double, IsInt64 (cell bias x.val) → IsInt64 (cell (bias + 2) x.val) := by
    intro x hx
    have hdiv := tdiv_four_spec (cell bias x.val)
    rw [cell_add_two]
    rw [IsInt64] at hx ⊢
    omega
  have hcoord : ∀ x : ℚ, (shiftOut (extreme x) = cell (bias + 2) x ↔
      x = 0 ∨ cell (bias + 2) x = -2 ^ 61) := by
    intro x
    by_cases hx : x = 0
    · have hzero : cell (bias + 2) 0 = 0 := truncate_eq_zero (by simp)
      simp [hx, extreme_zero, hzero]
    · rw [shiftOut_extreme hx, or_iff_right hx, eq_comm]
  have hint : IsInt32 (bias + 2) := by
    rw [IsInt32]
    omega
  have hsame : (v.map fun x => extreme x.val).map shiftOut =
      (v.map fun x => cell (bias + 2) x.val) ↔
      v.Forall fun x => x.val = 0 ∨ cell (bias + 2) x.val = -2 ^ 61 := by
    rw [Vector3.ext_iff]
    exact and_congr (hcoord _) (and_congr (hcoord _) (hcoord _))
  rw [nests_iff_shiftOut v hint, scale_of_lt v ⟨by omega, h.2⟩, scale_of_mem v ⟨by omega, by omega⟩,
    scale_eq hint ⟨hcells _ hv.1, hcells _ hv.2.1, hcells _ hv.2.2⟩, hsame, or_iff_right_iff_imp]
  intro hzero
  obtain ⟨hx, hy, hz⟩ := Vector3.ext_iff.mp hzero
  exact ⟨.inl (eq_zero_of_shiftOut_extreme hx), .inl (eq_zero_of_shiftOut_extreme hy),
    .inl (eq_zero_of_shiftOut_extreme hz)⟩

/-- The products are zero on the larger level. -/
theorem nests_iff_of_half_zero (h : 147 < bias ∧ bias ≤ 149)
    (hv : v.Forall fun x => IsInt64 (cell bias x.val)) :
    Nests (decompose v) bias ↔
      v.Forall fun x => -2 ≤ cell bias x.val ∧ cell bias x.val ≤ 1 := by
  have hint : IsInt32 (bias + 2) := by
    rw [IsInt32]
    omega
  have hscale : scale v bias = v.map fun x => cell bias x.val := by
    rw [scale_of_mem v (by omega), scale_eq (by unfold IsInt32; omega) hv]
  rw [nests_iff_shiftOut v hint, scale_of_gt v hint (.inl (by omega)), or_self, hscale,
    Vector3.ext_iff]
  exact and_congr (shiftOut_eq_zero_iff hv.1)
    (and_congr (shiftOut_eq_zero_iff hv.2.1) (shiftOut_eq_zero_iff hv.2.2))

/-- Only zero is in the range on the level of the smallest `int`. -/
theorem eq_zero_of_min {x : Double} (h : IsInt64 (cell (-2 ^ 31) x.val)) : x.val = 0 := by
  by_contra hne
  have hmul := mul_scalb_neg (by decide) h
  rw [mul_right_inj' hne] at hmul
  have hinj := zpow_right_injective₀ (by norm_num : (0 : ℚ) < 2) (by norm_num) hmul
  exact absurd hinj (by decide)

/-- On the server. -/
theorem nests_server_iff (hbias : IsInt32 bias)
    (hv : v.Forall fun x => IsInt64 (cell bias x.val)) :
    Nests (decompose v) bias ↔ v.Forall fun x => Nested bias x.val := by
  simp only [Nested]
  split_ifs with hlow hinfinite hmem hlast
  · by_cases hmin : bias = -2 ^ 31
    · subst hmin
      exact iff_of_true (nests_of_scale_eq_zero (scale_of_gt v hbias (.inr rfl)))
        ⟨eq_zero_of_min hv.1, eq_zero_of_min hv.2.1, eq_zero_of_min hv.2.2⟩
    · rw [IsInt32] at hbias
      exact nests_iff_of_infinite v ⟨by omega, hlow⟩
  · exact nests_iff_of_half_infinite ⟨by omega, hinfinite⟩ hv
  · have hthis : scale v bias = Experiments.scale v bias := scale_of_mem v (by omega)
    have hnext : scale v (bias + 2) = Experiments.scale v (bias + 2) := scale_of_mem v (by omega)
    rw [← nests_decompose_iff hbias hv, Nests, Nests, decompose, decompose, hthis, hnext]
    rfl
  · exact nests_iff_of_half_zero ⟨by omega, hlast⟩ hv
  · exact iff_of_true (nests_of_scale_eq_zero (scale_of_gt v hbias (.inl (by omega))))
      ⟨trivial, trivial, trivial⟩

/-- The position as the browser has it. -/
def position (v : Vector3d) : Vector3 DoubleValue := v.map fun x => .finite x.val

/-- The browser cuts the same numbers, unless the power is infinite. -/
theorem scale_browser_of_le (v : Vector3d) (h : -1023 ≤ bias) :
    QuadSpaces.scale .double (position v) bias =
      QuadSpaces.scale .exact (v.map Double.val) bias := by
  have hcoord : ∀ x : Double, Arithmetic.double.scaled bias (.finite x.val) =
      Arithmetic.exact.scaled bias x.val := by
    intro x
    simp only [Arithmetic.double, Arithmetic.exact, DoubleValue.pow]
    rw [if_neg (by omega)]
    split
    next hlarge =>
      -- no `double` reaches so far
      have hpower : (0 : ℚ) < 2 ^ (-bias) := zpow_pos (by decide) _
      rw [DoubleValue.mul, mul_zero]
      refine (truncate_eq_zero ?_).symm
      rw [abs_mul, abs_of_pos hpower]
      calc |x.val| * 2 ^ (-bias) < 2 ^ (1024 : ℤ) * 2 ^ (-bias) :=
            mul_lt_mul_of_pos_right x.abs_lt hpower
        _ = 2 ^ (1024 + -bias) := (zpow_add₀ (by decide) _ _).symm
        _ ≤ 1 := zpow_le_one_of_nonpos₀ (by decide) (by omega)
    next => rfl
  exact Vector3.ext (congrArg toInt32 (hcoord _)) (congrArg toInt32 (hcoord _))
    (congrArg toInt32 (hcoord _))

theorem scale_browser_of_lt (v : Vector3d) (h : bias < -1023) :
    QuadSpaces.scale .double (position v) bias = .zero := by
  have hcoord : ∀ x : Double, toInt32 (Arithmetic.double.scaled bias (.finite x.val)) = 0 := by
    intro x
    simp only [Arithmetic.double, DoubleValue.pow]
    rw [if_pos (by omega), DoubleValue.mul]
    split <;> rfl
  exact Vector3.ext (hcoord _) (hcoord _) (hcoord _)

/-- In the browser. -/
theorem nests_browser_iff (hv : v.Forall fun x => IsInt32 (cell bias x.val)) :
    Nests (QuadSpaces.decompose .double (position v)) bias ↔
      bias < -1023 ∨ v.Forall fun x => DropsDigit (cell bias x.val) := by
  by_cases h : bias < -1023
  · refine iff_of_true (fun hlength => ?_) (.inl h)
    have hend : (Vector3.zero : Vector3 ℤ).map QuadSpaces.shiftOut = .zero := rfl
    rw [QuadSpaces.decompose, List.length_map, scale_browser_of_lt v h, QuadSpaces.quads_eq,
      if_pos hend] at hlength
    exact absurd hlength (lt_irrefl 1)
  · have hthis : QuadSpaces.scale .double (position v) bias =
        QuadSpaces.scale .exact (v.map Double.val) bias := scale_browser_of_le v (by omega)
    have hnext : QuadSpaces.scale .double (position v) (bias + 2) =
        QuadSpaces.scale .exact (v.map Double.val) (bias + 2) := scale_browser_of_le v (by omega)
    rw [or_iff_right h]
    have hexact := nests_decompose_browser_iff (v := v.map Double.val) hv
    rw [Nests, QuadSpaces.decompose, QuadSpaces.decompose] at hexact ⊢
    rw [hthis, hnext]
    exact hexact

/-- **When quads nest**, on the server and in the browser: a position is in the larger cube that its
name goes on with, exactly if no coordinate is cut to a number of which the last digit carries, on
the levels from `2 ^ -127` to `2 ^ 147` meters on the server and from `2 ^ -1023` meters in the
browser. -/
theorem nests_iff (hbias : IsInt32 bias) (hv : v.Forall fun x => IsInt64 (cell bias x.val)) :
    (Nests (decompose v) bias ↔ v.Forall fun x => Nested bias x.val) ∧
      ((v.Forall fun x => IsInt32 (cell bias x.val)) →
        (Nests (QuadSpaces.decompose .double (position v)) bias ↔
          bias < -1023 ∨ v.Forall fun x => DropsDigit (cell bias x.val))) :=
  ⟨nests_server_iff hbias hv, fun hint => nests_browser_iff hint⟩

/-- A position three meters from the origin. -/
def three : Vector3d := .ofInts ⟨3, 0, 0⟩ ⟨by decide, by decide, by decide⟩

theorem isInt32_three : three.Forall fun x => IsInt32 (cell 0 x.val) :=
  (forall_cell_ofInts _).mpr ⟨by decide, by decide, by decide⟩

theorem isInt64_three : three.Forall fun x => IsInt64 (cell 0 x.val) := by
  have hlong : ∀ n : ℤ, IsInt32 n → IsInt64 n := by
    intro n hn
    rw [IsInt32] at hn
    rw [IsInt64]
    omega
  exact ⟨hlong _ isInt32_three.1, hlong _ isInt32_three.2.1, hlong _ isInt32_three.2.2⟩

theorem nests_iff_three :
    (Nests (decompose three) 0 ↔ three.Forall fun x => Nested 0 x.val) ∧
      ((three.Forall fun x => IsInt32 (cell 0 x.val)) →
        (Nests (QuadSpaces.decompose .double (position three)) 0 ↔
          (0 : ℤ) < -1023 ∨ three.Forall fun x => DropsDigit (cell 0 x.val))) :=
  nests_iff (by decide) isInt64_three

/-- Three is four less one, so that the list for one meter goes on with the next cube of four
meters. -/
theorem not_forall_nests :
    (¬∀ (bias : ℤ) (v : Vector3d), IsInt32 bias → Even bias →
      (v.Forall fun x => IsInt64 (cell bias x.val)) → Nests (decompose v) bias) ∧
    ¬∀ (bias : ℤ) (v : Vector3d), Even bias → (v.Forall fun x => IsInt32 (cell bias x.val)) →
      Nests (QuadSpaces.decompose .double (position v)) bias := by
  have hdigit : ¬three.Forall fun x => DropsDigit (cell 0 x.val) := by
    intro h
    have hx : DropsDigit 3 := ((forall_cell_ofInts _).mp h).1
    exact absurd hx (by decide)
  constructor
  · intro hall
    exact hdigit ((nests_server_iff (by decide) isInt64_three).mp
      (hall 0 three (by decide) Even.zero isInt64_three))
  · intro hall
    exact hdigit (((nests_browser_iff isInt32_three).mp
      (hall 0 three Even.zero isInt32_three)).resolve_left (by decide))

end InDoubles

end Experiments

end Gwems
