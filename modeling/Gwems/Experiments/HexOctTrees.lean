import Gwems.Experiments.Doubles

/-!
# `HexOctTrees.java`: the minimum corner of a cube in hexadecimal

"Describe, precisely, power of two oct-trees with an ascii format": `decompose` writes the corner of
the cube of a position as three hexadecimal numbers with signs, in cubes of `2^bias` meters, and the
bias. `compose` reads them back.

`parseSignedHexLong` sees the sign, but gives the whole string to `Long.parseLong`, which reads the
sign too, and negates the number a second time. So every number comes back as its magnitude
(`compose_decompose`), and the corner as itself if no coordinate is negative
(`compose_decompose_iff`), as long as `Math.scalb` has the powers of two that it takes.
-/

namespace Gwems

namespace HexOctTrees

open Experiments (split split_intercalate)

/-! ### Writing -/

/-- `(long) Math.abs(Math.floor(v.x * power))`. -/
def magnitude (x : Double) (bias : ℤ) : ℤ :=
  ((DoubleValue.finite x.val).mul (.scalb (toInt32 (-bias)))).floor.abs.toLong

/-- `Long.toHexString(x)`. -/
def toHexString (x : ℤ) : String := String.ofList (Nat.toDigits 16 (x % 2 ^ 64).toNat)

/-- One coordinate: the sign of the position, unless there is nothing to give it to, and the
magnitude. -/
def hexString (x : Double) (bias : ℤ) : String :=
  let n := magnitude x bias
  let neg := x.val < 0 ∧ n ≠ 0
  (if neg then "-" else "") ++ toHexString n

/-- `HexOctTrees.decompose(v, bias)`. -/
def decompose (v : Vector3d) (bias : ℤ) : String :=
  "_".intercalate [hexString v.x bias, hexString v.y bias, hexString v.z bias, toString bias]

/-! ### Reading -/

/-- `Long.parseLong(s, 16)`. -/
def parseLong (s : String) : Except String ℤ :=
  match Numeral.int? 16 s.toList with
  | some n => if -2 ^ 63 ≤ n ∧ n < 2 ^ 63 then .ok n else .error (forInputString s)
  | none => .error (forInputString s)

/-- `parseSignedHexLong(s)`. -/
def parseSignedHexLong (s : String) : Except String ℤ :=
  (parseLong s).map fun val => if s.toList.head? = some '-' then toInt64 (-val) else val

/-- `compose(s)`. -/
def compose (s : String) : Except String (Vector3 DoubleValue) :=
  match split s with
  | [x, y, z, p] => do
    let i0 ← parseSignedHexLong x
    let i1 ← parseSignedHexLong y
    let i2 ← parseSignedHexLong z
    let scaleFactor ← parseInt p
    return (⟨i0, i1, i2⟩ : Vector3 ℤ).map fun i : ℤ =>
      (DoubleValue.finite i).mul (.scalb scaleFactor)
  | _ => throw (s ++ " needs 4 _parts")

/-! ### One coordinate -/

variable {x : Double} {v : Vector3d} {bias : ℤ}

theorem magnitude_mem (x : Double) (bias : ℤ) :
    0 ≤ magnitude x bias ∧ magnitude x bias < 2 ^ 63 := by
  rw [magnitude]
  cases (DoubleValue.finite x.val).mul (.scalb (toInt32 (-bias))) with
  | nan => exact ⟨le_rfl, by decide⟩
  | infinity s =>
    have htop : (DoubleValue.infinity s).floor.abs.toLong = 2 ^ 63 - 1 := rfl
    rw [htop]
    decide
  | finite y =>
    have hcut : 0 ≤ truncate |(⌊y⌋ : ℚ)| := by
      rw [truncate, if_pos (abs_nonneg _)]
      exact Int.floor_nonneg.mpr (abs_nonneg _)
    simp only [DoubleValue.floor, DoubleValue.abs, DoubleValue.toLong, toLong]
    omega

/-- The digits of a magnitude. -/
theorem toHexString_magnitude (x : Double) (bias : ℤ) :
    (toHexString (magnitude x bias)).toList = Nat.toDigits 16 (magnitude x bias).toNat := by
  obtain ⟨hnonneg, hlt⟩ := magnitude_mem x bias
  rw [toHexString, String.toList_ofList, Int.emod_eq_of_lt hnonneg (by omega)]

/-- With a sign or without one, the string of a coordinate. -/
theorem toList_hexString (x : Double) (bias : ℤ) :
    (hexString x bias).toList = '-' :: Nat.toDigits 16 (magnitude x bias).toNat ∨
      (hexString x bias).toList = Nat.toDigits 16 (magnitude x bias).toNat := by
  have hdigits := toHexString_magnitude x bias
  simp only [hexString, String.toList_append, hdigits]
  split
  next => exact .inl rfl
  next => exact .inr rfl

/-- **The sign is taken twice**: what is read is the magnitude. -/
theorem parseSignedHexLong_hexString (x : Double) (bias : ℤ) :
    parseSignedHexLong (hexString x bias) = .ok (magnitude x bias) := by
  obtain ⟨hnonneg, hlt⟩ := magnitude_mem x bias
  have hnat : ((magnitude x bias).toNat : ℤ) = magnitude x bias := Int.toNat_of_nonneg hnonneg
  rw [parseSignedHexLong, parseLong]
  rcases toList_hexString x bias with hlist | hlist
  · have hback : toInt64 (- -magnitude x bias) = magnitude x bias := by
      have hspec := Experiments.toInt64_spec (- -magnitude x bias)
      omega
    rw [hlist, Numeral.int?_neg_toDigits (by decide) (by decide), hnat]
    simp only [List.head?_cons, if_true]
    rw [if_pos (by omega), Except.map, hback]
  · have hsign : (Nat.toDigits 16 (magnitude x bias).toNat).head? ≠ some '-' := fun h =>
      Numeral.notMem_toDigits (by decide) (by decide) Numeral.value?_sign.1 _ (List.mem_of_head? h)
    rw [hlist, Numeral.int?_toDigits (by decide) (by decide), hnat]
    simp only [if_neg hsign]
    rw [if_pos (by omega), Except.map]

theorem underscore_notMem_hexString (x : Double) (bias : ℤ) : '_' ∉ (hexString x bias).toList := by
  have hdigits : '_' ∉ Nat.toDigits 16 (magnitude x bias).toNat :=
    Numeral.notMem_toDigits (by decide) (by decide) Numeral.value?_sign.2.2 _
  rcases toList_hexString x bias with hlist | hlist
  · rw [hlist, List.mem_cons, not_or]
    exact ⟨by decide, hdigits⟩
  · rw [hlist]
    exact hdigits

theorem underscore_notMem_toString (n : ℤ) : '_' ∉ (toString n).toList := by
  intro h
  rcases Text.mem_toList_toString_int h with hc | hc
  · exact absurd hc (by decide)
  · exact absurd hc (by decide)

/-! ### Round trip -/

/-- The minimum corner of the cube of a position. -/
def minCorner (v : Vector3d) (bias : ℤ) : Vector3 ℚ :=
  v.map fun x => ⌊x.val * scalb (-bias)⌋ * scalb bias

/-- **What comes back** are the magnitudes. -/
theorem compose_decompose (hbias : IsInt32 bias) (v : Vector3d) :
    compose (decompose v bias) =
      .ok (v.map fun x => (DoubleValue.finite (magnitude x bias)).mul (.scalb bias)) := by
  have hsplit : split (decompose v bias) =
      [hexString v.x bias, hexString v.y bias, hexString v.z bias, toString bias] := by
    refine split_intercalate (List.cons_ne_nil _ _) (fun t ht => ?_) fun t ht => ?_
    · simp only [List.mem_cons, List.not_mem_nil, or_false] at ht
      rcases ht with rfl | rfl | rfl | rfl
      · exact underscore_notMem_hexString _ _
      · exact underscore_notMem_hexString _ _
      · exact underscore_notMem_hexString _ _
      · exact underscore_notMem_toString _
    · obtain rfl : toString bias = t := by simpa using ht
      exact fun h => Text.toList_toString_int_ne_nil bias (by rw [h]; rfl)
  simp only [compose, hsplit, parseSignedHexLong_hexString, Experiments.parseInt_toString hbias,
    bind, Except.bind]
  rfl

/-- The magnitude where the power is a number. -/
theorem magnitude_of_mem (x : Double) (h : -127 ≤ bias ∧ bias ≤ 149) :
    magnitude x bias = toLong |(⌊x.val * scalb (-bias)⌋ : ℚ)| := by
  have hneg : toInt32 (-bias) = -bias :=
    (isInt32_toInt32 _).eq_of_modEq (by unfold IsInt32; omega) (toInt32_modEq _)
  rw [magnitude, hneg, DoubleValue.scalb_of_mem (by omega)]
  rfl

/-- The magnitude where the power is infinite. -/
theorem magnitude_of_lt (x : Double) (h : -2 ^ 31 < bias ∧ bias < -127) :
    magnitude x bias = if x.val = 0 then 0 else 2 ^ 63 - 1 := by
  have hneg : toInt32 (-bias) = -bias :=
    (isInt32_toInt32 _).eq_of_modEq (by unfold IsInt32; omega) (toInt32_modEq _)
  rw [magnitude, hneg, DoubleValue.scalb_of_lt (by omega), DoubleValue.mul]
  split <;> rfl

/-- A magnitude below the end of the range is the number of the cube, where that is not negative. -/
theorem toLong_abs_floor_eq_iff {y : ℚ} (hy : |y| < 2 ^ 63) :
    toLong |(⌊y⌋ : ℚ)| = ⌊y⌋ ↔ 0 ≤ y := by
  rw [← Int.cast_abs, toLong, truncate_intCast]
  constructor
  · intro h
    refine Int.floor_nonneg.mp ?_
    have habs := abs_nonneg ⌊y⌋
    omega
  · intro hnonneg
    have hfloor := Int.floor_nonneg.mpr hnonneg
    have hlt : ⌊y⌋ < 2 ^ 63 := by
      have hle := (Int.floor_le y).trans_lt (abs_lt.mp hy).2
      exact_mod_cast hle
    rw [abs_of_nonneg hfloor]
    omega

/-- When a coordinate comes back: if it is not negative, where the powers of two in both directions
are `float`s, and otherwise if the cube is that of the number which the cast makes of an infinite
product, or of the zero that a product with no power is. -/
def ComesBack (bias : ℤ) (x : ℚ) : Prop :=
  if bias < -149 then ⌊x * scalb (-bias)⌋ = 0
  else if bias < -127 then x = 0 ∨ ⌊x * scalb (-bias)⌋ = 2 ^ 63 - 1
  else bias ≤ 127 ∧ 0 ≤ x

theorem mul_scalb_eq_iff (hx : |x.val * scalb (-bias)| < 2 ^ 63) :
    (DoubleValue.finite (magnitude x bias)).mul (.scalb bias) =
      .finite (⌊x.val * scalb (-bias)⌋ * scalb bias) ↔ ComesBack bias x.val := by
  have hpower : (scalb bias : ℚ) ≠ 0 := zpow_ne_zero _ (by decide)
  have hpower' : (0 : ℚ) < scalb (-bias) := zpow_pos (by decide) _
  rw [ComesBack]
  split
  next hsmall =>
    rw [DoubleValue.scalb_of_gt hsmall, DoubleValue.mul, mul_zero, DoubleValue.finite.injEq,
      eq_comm, mul_eq_zero, or_iff_left hpower, Int.cast_eq_zero]
  next hsmall =>
    split
    next hlow =>
      rw [DoubleValue.scalb_of_mem (by omega), DoubleValue.mul, DoubleValue.finite.injEq,
        mul_left_inj' hpower, Int.cast_inj, magnitude_of_lt x (by omega)]
      split
      next hzero => simp [hzero]
      next hzero => rw [or_iff_right hzero, eq_comm]
    next hlow =>
      by_cases hhigh : bias ≤ 127
      · rw [DoubleValue.scalb_of_mem (by omega), DoubleValue.mul, DoubleValue.finite.injEq,
          mul_left_inj' hpower, Int.cast_inj, magnitude_of_mem x (by omega),
          toLong_abs_floor_eq_iff hx, mul_nonneg_iff_of_pos_right hpower', and_iff_right hhigh]
      · rw [DoubleValue.scalb_of_lt (by omega)]
        exact iff_of_false DoubleValue.mul_infinity_ne_finite fun h => hhigh h.1

/-- **The round trip** gives the corner of the cube of a position, exactly if every coordinate comes
back: on the levels from `2 ^ -127` to `2 ^ 127` meters, if no coordinate is negative. -/
theorem compose_decompose_iff (hbias : IsInt32 bias)
    (hv : v.Forall fun x => |x.val * scalb (-bias)| < 2 ^ 63) :
    compose (decompose v bias) = .ok ((minCorner v bias).map .finite) ↔
      v.Forall fun x => ComesBack bias x.val := by
  rw [compose_decompose hbias, Except.ok.injEq, Vector3.ext_iff]
  exact and_congr (mul_scalb_eq_iff hv.1)
    (and_congr (mul_scalb_eq_iff hv.2.1) (mul_scalb_eq_iff hv.2.2))

/-- A position eight meters behind the origin. -/
def behind : Vector3d := .ofInts ⟨-8, 10, 0⟩ ⟨by decide, by decide, by decide⟩

theorem abs_behind_lt : behind.Forall fun x => |x.val * scalb (-0)| < 2 ^ 63 := by
  norm_num [behind, Vector3d.ofInts, Vector3.Forall, Double.ofInt, scalb]

theorem compose_decompose_iff_behind :
    compose (decompose behind 0) = .ok ((minCorner behind 0).map .finite) ↔
      behind.Forall fun x => ComesBack 0 x.val :=
  compose_decompose_iff (by decide) abs_behind_lt

/-- "-8_a_0_0" is read as eight meters in front of the origin. -/
theorem not_forall_compose_decompose : ¬∀ (bias : ℤ) (v : Vector3d), IsInt32 bias →
    (v.Forall fun x => |x.val * scalb (-bias)| < 2 ^ 63) →
      compose (decompose v bias) = .ok ((minCorner v bias).map .finite) := by
  intro hall
  have hback := hall 0 behind (by decide) abs_behind_lt
  rw [compose_decompose (by decide), Except.ok.injEq, Vector3.ext_iff] at hback
  obtain ⟨-, hnonneg⟩ := (mul_scalb_eq_iff abs_behind_lt.1).mp hback.1
  norm_num [behind, Vector3d.ofInts, Double.ofInt] at hnonneg

end HexOctTrees

end Gwems
