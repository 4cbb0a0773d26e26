import Gwems.Library.Numeral
import Gwems.WebContent.QuadSpaces

/-!
# `QuadSpaces.java`: the names of cubes on the server

The server has the same `decompose` as the browser, over `long`s, and its opposite `reconstitute`,
which reads the quads of a list and adds their corners up. `getMinMax` gives both ends of the cube
that one quad stands for.

Coordinates are `double`s. They are taken as exact here: no product and no sum is rounded, and every
power of two is a number. `int`s and `long`s wrap around, and the cast to a `long` cuts towards zero
and stops at the ends of the range.

* `reconstitute_decompose`: the corners of the quads add up to the cube that the cast chose, which
  is the position itself where that is a corner;
* `cell_mul_le_and_lt_iff`: the cube contains the position, unless the cast cut a negative number;
* `listToString_eq_iff`: the browser gives the same names, but for two numbers at the end of its
  range.
-/

namespace Gwems

/-- The number `n` in the arithmetic of a `long`. -/
def toInt64 (n : ℤ) : ℤ := Int.bmod n (2 ^ 64)

/-- What `toInt64` gives. -/
def IsInt64 (n : ℤ) : Prop := -2 ^ 63 ≤ n ∧ n < 2 ^ 63

/-- A `double`, taken as exact: a rational number between the smallest and the largest power. -/
@[ext]
structure Double where
  val : ℚ
  abs_lt : |val| < 2 ^ (1024 : ℤ)
  le_abs : val ≠ 0 → 2 ^ (-1074 : ℤ) ≤ |val|

/-- The `double` `n / 2 ^ k`. -/
def Double.ofInt (n : ℤ) (k : ℕ) (hn : IsInt32 n) (hk : k ≤ 1000) : Double where
  val := n * 2 ^ (-k : ℤ)
  abs_lt := by
    have hpos : (0 : ℚ) < 2 ^ (-k : ℤ) := zpow_pos (by decide) _
    have hle : (2 : ℚ) ^ (-k : ℤ) ≤ 1 := zpow_le_one_of_nonpos₀ (by decide) (by omega)
    have hint : |(n : ℚ)| ≤ 2 ^ 31 := by
      unfold IsInt32 at hn
      exact_mod_cast abs_le.mpr ⟨hn.1, hn.2.le⟩
    have hlarge : (2 : ℚ) ^ (31 : ℤ) < 2 ^ (1024 : ℤ) :=
      zpow_lt_zpow_right₀ (by decide) (by decide)
    rw [abs_mul, abs_of_pos hpos]
    exact ((mul_le_of_le_one_right (abs_nonneg _) hle).trans hint).trans_lt hlarge
  le_abs h := by
    have hpos : (0 : ℚ) < 2 ^ (-k : ℤ) := zpow_pos (by decide) _
    have hne : n ≠ 0 := by
      rintro rfl
      simp at h
    have hint : (1 : ℚ) ≤ |(n : ℚ)| := by exact_mod_cast Int.one_le_abs hne
    have hsmall : (2 : ℚ) ^ (-1074 : ℤ) ≤ 2 ^ (-k : ℤ) :=
      zpow_le_zpow_right₀ (by decide) (by omega)
    rw [abs_mul, abs_of_pos hpos]
    exact hsmall.trans (le_mul_of_one_le_left hpos.le hint)

/-- A `javax.vecmath.Vector3d`. -/
abbrev Vector3d := Vector3 Double

/-- A position at whole meters. -/
def Vector3d.ofInts (v : Vector3 ℤ) (hv : v.Forall IsInt32) : Vector3d :=
  ⟨.ofInt v.x 0 hv.1 (by decide), .ofInt v.y 0 hv.2.1 (by decide), .ofInt v.z 0 hv.2.2 (by decide)⟩

/-- `sum.add(v)`. -/
def Vector3.add (sum v : Vector3 ℚ) : Vector3 ℚ := ⟨sum.x + v.x, sum.y + v.y, sum.z + v.z⟩

/-- `Math.scalb(1, n)`. -/
def scalb (n : ℤ) : ℚ := 2 ^ n

/-- `(long) x`. -/
def toLong (x : ℚ) : ℤ := max (-2 ^ 63) (min (2 ^ 63 - 1) (truncate x))

instance (n : ℤ) : Decidable (IsInt32 n) := inferInstanceAs (Decidable (_ ∧ _))

/-- The message of a `NumberFormatException`. -/
def forInputString (s : String) : String := "For input string: \"" ++ s ++ "\""

/-- `Integer.parseInt(s)`: a decimal numeral, within the range of an `int`. -/
def parseInt (s : String) : Except String ℤ :=
  match Numeral.int? 10 s.toList with
  | some n => if IsInt32 n then .ok n else .error (forInputString s)
  | none => .error (forInputString s)

namespace Experiments

open QuadSpaces (Quad size size_map_lt)

/-! ### Taking a position apart -/

/-- `x & 3` after `x += 2`. -/
def lowBits (x : ℤ) : ℤ := toInt64 (x + 2) % 4

/-- The next `x`: `x += 2`, `x -= i1`, `x >>= 2`. -/
def shiftOut (x : ℤ) : ℤ := toInt64 (toInt64 (x + 2) - lowBits x) / 4

theorem lowBits_eq (x : ℤ) : lowBits x = (x + 2) % 4 := by
  have hmod : toInt64 (x + 2) % 2 ^ 64 = (x + 2) % 2 ^ 64 := Int.bmod_emod
  rw [lowBits]
  omega

theorem toInt64_modEq (n : ℤ) : toInt64 n ≡ n [ZMOD 2 ^ 64] := Int.bmod_emod

theorem isInt64_toInt64 (n : ℤ) : IsInt64 (toInt64 n) := by
  have hle : -((2 ^ 64 : ℕ) / 2 : ℤ) ≤ Int.bmod n (2 ^ 64) := Int.le_bmod (by decide)
  have hlt : Int.bmod n (2 ^ 64) < ((2 ^ 64 : ℕ) + 1 : ℤ) / 2 := Int.bmod_lt (by decide)
  rw [IsInt64, toInt64]
  constructor
  · simpa using hle
  · simpa using hlt

/-- Wrapping around in linear arithmetic. -/
theorem toInt64_spec (n : ℤ) :
    (-2 ^ 63 ≤ toInt64 n ∧ toInt64 n < 2 ^ 63) ∧ toInt64 n % 2 ^ 64 = n % 2 ^ 64 :=
  ⟨isInt64_toInt64 n, toInt64_modEq n⟩

/-- The carry is shifted out. -/
theorem shiftOut_eq (x : ℤ) : shiftOut x = toInt64 (x + 2) / 4 := by
  have hsum := toInt64_spec (x + 2)
  have hdiff := toInt64_spec (toInt64 (x + 2) - lowBits x)
  rw [shiftOut]
  rw [show lowBits x = toInt64 (x + 2) % 4 from rfl] at *
  omega

@[simp] theorem shiftOut_zero : shiftOut 0 = 0 := rfl

theorem natAbs_shiftOut_lt {x : ℤ} (hx : x ≠ 0) : (shiftOut x).natAbs < x.natAbs := by
  have hsum := toInt64_spec (x + 2)
  rw [shiftOut_eq]
  omega

theorem size_shiftOut_lt {v : Vector3 ℤ} (h : v.map shiftOut ≠ .zero) :
    size (v.map shiftOut) < size v :=
  size_map_lt shiftOut_zero (fun _ hx => natAbs_shiftOut_lt hx) h

/-- The `while (true)` of `decompose`. The numbers get closer to zero from turn to turn. -/
def quads (v : Vector3 ℤ) (p : ℤ) : List Quad :=
  ⟨v.map fun x => lowBits x - 2, p⟩ ::
    if v.map shiftOut = .zero then [] else quads (v.map shiftOut) (toInt32 (p + 2))
termination_by size v
decreasing_by exact size_shiftOut_lt ‹_›

/-- `(long) (v.x * power)` for all three coordinates. -/
def scale (v : Vector3d) (bias : ℤ) : Vector3 ℤ :=
  v.map fun x => toLong (x.val * scalb (toInt32 (-bias)))

/-- `QuadSpaces.decompose(v, bias)`. Its assertion that the bias is even is off in a server. -/
def decompose (v : Vector3d) (bias : ℤ) : List String :=
  (quads (scale v bias) bias).map Quad.toString

/-- `"" + list`. -/
def listToString (list : List String) : String := "[" ++ ", ".intercalate list ++ "]"

/-! ### Reading quads -/

/-- `s.split("_")`, which drops empty parts at the end, unless there is nothing to split at. -/
def split (s : String) : List String :=
  if s = "" then [""] else ((s.toList.splitOn '_').map String.ofList).rdropWhile (· = "")

/-- `((i + 2) & 0xFFFFFFFC) == 0`. -/
def IsSigned2Bit (i : ℤ) : Prop := toInt32 (i + 2) / 4 = 0

instance (i : ℤ) : Decidable (IsSigned2Bit i) := inferInstanceAs (Decidable (_ = _))

/-- What `getMinMax` and `getMinCorner` read from a string. -/
def parse (s : String) : Except String Quad :=
  match split s with
  | [x, y, z, p] => do
    let i0 ← parseInt x
    let i1 ← parseInt y
    let i2 ← parseInt z
    if ¬IsSigned2Bit i0 ∨ ¬IsSigned2Bit i1 ∨ ¬IsSigned2Bit i2 then
      throw (s ++ " must be signed 2 bit")
    let scaleFactor ← parseInt p
    return ⟨⟨i0, i1, i2⟩, scaleFactor⟩
  | _ => throw (s ++ " needs 4 _parts")

/-- The minimum of the cube of a quad. -/
def vmin (q : Quad) : Vector3 ℚ := q.digits.map fun i : ℤ => i * scalb q.p

/-- The maximum of the cube of a quad. -/
def vmax (q : Quad) : Vector3 ℚ := q.digits.map fun i : ℤ => (i + 1 : ℤ) * scalb q.p

/-- `QuadSpaces.getMinMax(s)`. -/
def getMinMax (s : String) : Except String (Vector3 ℚ × Vector3 ℚ) :=
  (parse s).map fun q => (vmin q, vmax q)

/-- `QuadSpaces.getMinCorner(s)`. -/
def getMinCorner (s : String) : Except String (Vector3 ℚ) := (parse s).map vmin

/-- `sum.add(getMinCorner(string))`. -/
def addMinCorner (sum : Vector3 ℚ) (string : String) : Except String (Vector3 ℚ) :=
  (getMinCorner string).map sum.add

/-- `QuadSpaces.reconstitute(quadspaces)`. -/
def reconstitute (quadspaces : List String) : Except String (Vector3 ℚ) :=
  quadspaces.foldlM addMinCorner .zero

/-! ### The loop -/

/-- Where the two cannot be added to, or where they can without wrapping around, the numbers are
divided by four. -/
theorem shiftOut_eq_signedCarry {x : ℤ} (h : -2 ^ 63 ≤ x ∧ x ≤ 2 ^ 63 - 3) :
    shiftOut x = signedCarry x := by
  have hsum := toInt64_spec (x + 2)
  rw [shiftOut_eq, signedCarry]
  omega

/-- **The loop of `decompose`**, one turn. -/
theorem quads_eq (v : Vector3 ℤ) (p : ℤ) :
    quads v p = ⟨v.map signedDigit, p⟩ ::
      if v.map shiftOut = .zero then [] else quads (v.map shiftOut) (toInt32 (p + 2)) := by
  have hdigits : (fun x => lowBits x - 2) = signedDigit := by
    funext x
    rw [lowBits_eq, signedDigit]
  rw [quads, hdigits]

theorem quads_ne_nil (v : Vector3 ℤ) (p : ℤ) : quads v p ≠ [] := by
  rw [quads_eq]
  exact List.cons_ne_nil _ _

/-- Numbers of `k` digits, and of a half more, take one turn more than that. -/
theorem length_quads_le {k : ℕ} {v : Vector3 ℤ} {p : ℤ} (h : v.Forall fun x => |x| ≤ 4 ^ k) :
    (quads v p).length ≤ k + 1 := by
  have hshift : ∀ (b x : ℤ), |x| ≤ 4 * b → |shiftOut x| ≤ b := by
    intro b x hx
    have hsum := toInt64_spec (x + 2)
    rw [shiftOut_eq]
    rw [abs_le] at hx ⊢
    omega
  induction k generalizing v p with
  | zero =>
    have hzero : ∀ x : ℤ, |x| ≤ 4 ^ 0 → shiftOut x = 0 := by
      intro x hx
      rw [pow_zero, abs_le] at hx
      rw [shiftOut_eq_signedCarry (by omega), signedCarry]
      omega
    have hend : v.map shiftOut = .zero :=
      Vector3.ext (hzero _ h.1) (hzero _ h.2.1) (hzero _ h.2.2)
    rw [quads_eq, if_pos hend]
    rfl
  | succ k ih =>
    rw [quads_eq, List.length_cons]
    split
    next => exact Nat.succ_le_succ (Nat.zero_le _)
    next =>
      rw [pow_succ'] at h
      exact Nat.succ_le_succ
        (ih ⟨hshift _ _ h.1, hshift _ _ h.2.1, hshift _ _ h.2.2⟩)

/-- One turn, where the exponents stay `int`s to the end. -/
theorem quads_turn {v : Vector3 ℤ} {p : ℤ} (hp : IsInt32 p)
    (hfits : p + 2 * (quads v p).length ≤ 2 ^ 31 + 1) :
    (quads v p = ⟨v.map signedDigit, p⟩ ::
      if v.map shiftOut = .zero then [] else quads (v.map shiftOut) (p + 2)) ∧
    (v.map shiftOut ≠ .zero → IsInt32 (p + 2) ∧
      p + 2 + 2 * (quads (v.map shiftOut) (p + 2)).length ≤ 2 ^ 31 + 1) := by
  have heq := quads_eq v p
  split at heq
  next hend => exact ⟨by rw [heq, if_pos hend], fun h => absurd hend h⟩
  next hgo =>
    have hne := List.length_pos_of_ne_nil (quads_ne_nil (v.map shiftOut) (toInt32 (p + 2)))
    have hlength := congrArg List.length heq
    rw [List.length_cons] at hlength
    have hp' : IsInt32 (p + 2) := by
      rw [IsInt32] at hp ⊢
      omega
    have hstep : toInt32 (p + 2) = p + 2 :=
      (isInt32_toInt32 _).eq_of_modEq hp' (toInt32_modEq _)
    rw [hstep] at heq hlength
    exact ⟨by rw [heq, if_neg hgo], fun _ => ⟨hp', by omega⟩⟩

/-- Induction along the turns of the loop, where the exponents stay `int`s. -/
theorem quads_induction {P : Vector3 ℤ → ℤ → Prop}
    (turn : ∀ v p, IsInt32 p → quads v p = ⟨v.map signedDigit, p⟩ ::
        (if v.map shiftOut = .zero then [] else quads (v.map shiftOut) (p + 2)) →
      (v.map shiftOut ≠ .zero → P (v.map shiftOut) (p + 2)) → P v p)
    {v : Vector3 ℤ} {p : ℤ} (hp : IsInt32 p) (hfits : p + 2 * (quads v p).length ≤ 2 ^ 31 + 1) :
    P v p := by
  induction hn : size v using Nat.strong_induction_on generalizing v p with
  | _ n ih =>
    subst hn
    obtain ⟨heq, hrest⟩ := quads_turn hp hfits
    exact turn v p hp heq fun h => ih _ (size_shiftOut_lt h) (hrest h).1 (hrest h).2 rfl

/-- The exponents count up in steps of two. -/
theorem map_p_quads {v : Vector3 ℤ} {p : ℤ} (hp : IsInt32 p)
    (hfits : p + 2 * (quads v p).length ≤ 2 ^ 31 + 1) :
    (quads v p).map Quad.p = (List.range (quads v p).length).map fun k : ℕ => p + 2 * k := by
  refine quads_induction (P := fun v p => (quads v p).map Quad.p =
    (List.range (quads v p).length).map fun k : ℕ => p + 2 * k) (fun v p _ heq ih => ?_) hp hfits
  rw [heq, List.map_cons, List.length_cons, List.range_succ_eq_map, List.map_cons, List.map_map]
  split
  next => simp
  next h =>
    rw [ih h]
    refine congrArg₂ List.cons (by simp) (List.map_congr_left fun k _ => ?_)
    simp only [Function.comp_apply]
    push_cast
    ring

/-- The digits are between minus two and one. -/
theorem digits_quads (v : Vector3 ℤ) (p : ℤ) :
    ∀ q ∈ quads v p, q.digits.Forall fun d => -2 ≤ d ∧ d ≤ 1 := by
  induction v, p using quads.induct with
  | case1 v p ih =>
    rw [quads_eq, List.forall_mem_cons]
    refine ⟨⟨signedDigit_mem _, signedDigit_mem _, signedDigit_mem _⟩, ?_⟩
    split
    next => simp
    next h => exact ih h

/-! ### Reading back -/

theorem parseInt_toString {n : ℤ} (hn : IsInt32 n) : parseInt (ToString.toString n) = .ok n := by
  rw [parseInt, Numeral.int?_toString]
  exact if_pos hn

/-- What is joined with underscores is split again. -/
theorem split_intercalate {parts : List String} (hne : parts ≠ [])
    (hfree : ∀ t ∈ parts, '_' ∉ t.toList) (hlast : ∀ t ∈ parts.getLast?, t ≠ "") :
    split ("_".intercalate parts) = parts := by
  have hpieces : ("_".intercalate parts).toList.splitOn '_' = parts.map String.toList := by
    rw [String.toList_intercalate]
    refine List.splitOn_intercalate '_' (fun l hl => ?_) (by simpa using hne)
    obtain ⟨t, ht, rfl⟩ := List.mem_map.mp hl
    exact hfree t ht
  have hmap : (String.ofList ∘ String.toList) = id := by
    funext t
    exact String.ofList_toList
  have hjoined : "_".intercalate parts ≠ "" := by
    intro hempty
    rw [hempty] at hpieces
    have hsingle : parts = [""] :=
      List.map_injective_iff.mpr (fun _ _ h => String.toList_injective h) hpieces.symm
    exact hlast "" (by rw [hsingle]; rfl) rfl
  rw [split, if_neg hjoined, hpieces, List.map_map, hmap, List.map_id]
  refine List.rdropWhile_eq_self_iff.mpr fun _ => ?_
  simpa using hlast _ (List.getLast?_eq_getLast_of_ne_nil hne)

theorem split_toString (q : Quad) : split q.toString = [ToString.toString q.digits.x,
    ToString.toString q.digits.y, ToString.toString q.digits.z, ToString.toString q.p] := by
  refine split_intercalate (List.cons_ne_nil _ _) q.underscore_notMem fun t ht => ?_
  obtain rfl : ToString.toString q.p = t := by simpa using ht
  intro h
  exact Text.toList_toString_int_ne_nil q.p (by rw [h]; rfl)

/-- **A quad is read as it was written.** -/
theorem parse_toString {q : Quad} (hdigits : q.digits.Forall fun d => -2 ≤ d ∧ d ≤ 1)
    (hp : IsInt32 q.p) : parse q.toString = .ok q := by
  have hint : ∀ d : ℤ, -2 ≤ d ∧ d ≤ 1 → IsInt32 d ∧ IsSigned2Bit d := by
    intro d hd
    have hsum : IsInt32 (d + 2) := by
      rw [IsInt32]
      omega
    refine ⟨by unfold IsInt32; omega, ?_⟩
    rw [IsSigned2Bit, (isInt32_toInt32 _).eq_of_modEq hsum (toInt32_modEq _)]
    omega
  obtain ⟨hx, hy, hz⟩ := hdigits
  have hsigned : ¬(¬IsSigned2Bit q.digits.x ∨ ¬IsSigned2Bit q.digits.y ∨
      ¬IsSigned2Bit q.digits.z) := by
    simp only [(hint _ hx).2, (hint _ hy).2, (hint _ hz).2, not_true, or_self, not_false_eq_true]
  simp only [parse, split_toString, parseInt_toString (hint _ hx).1,
    parseInt_toString (hint _ hy).1, parseInt_toString (hint _ hz).1, parseInt_toString hp, bind,
    Except.bind]
  rw [if_neg hsigned]
  rfl

/-! ### The cubes -/

/-- The corner of a cube of the size `2 ^ p`. -/
def corner (v : Vector3 ℤ) (p : ℤ) : Vector3 ℚ := v.map fun n : ℤ => n * scalb p

/-- The lowest digits and the carry stand for the numbers. -/
theorem add_vmin_corner (sum : Vector3 ℚ) (v : Vector3 ℤ) (p : ℤ) :
    (sum.add (vmin ⟨v.map signedDigit, p⟩)).add (corner (v.map signedCarry) (p + 2)) =
      sum.add (corner v p) := by
  have hpower : scalb (p + 2) = scalb p * 4 := by
    rw [scalb, scalb, zpow_add₀ (by decide)]
    norm_num
  have hnumber : ∀ (n : ℤ) (a : ℚ),
      a + signedDigit n * scalb p + signedCarry n * scalb (p + 2) = a + n * scalb p := by
    intro n a
    have hsplit : (n : ℚ) = signedDigit n + 4 * signedCarry n := by
      exact_mod_cast (signedDigit_add_signedCarry n).symm
    rw [hpower, hsplit]
    ring
  exact Vector3.ext (hnumber _ _) (hnumber _ _) (hnumber _ _)

/-- **The corners of the quads add up** to the numbers that were taken apart, if these are not at
the very end of the range. -/
theorem foldlM_quads {v : Vector3 ℤ} {p : ℤ} (hp : IsInt32 p)
    (hfits : p + 2 * (quads v p).length ≤ 2 ^ 31 + 1)
    (hv : v.Forall fun n => -2 ^ 63 ≤ n ∧ n ≤ 2 ^ 63 - 3) (sum : Vector3 ℚ) :
    ((quads v p).map Quad.toString).foldlM addMinCorner sum = .ok (sum.add (corner v p)) := by
  refine quads_induction (P := fun v p => (v.Forall fun n => -2 ^ 63 ≤ n ∧ n ≤ 2 ^ 63 - 3) →
    ∀ sum : Vector3 ℚ, ((quads v p).map Quad.toString).foldlM addMinCorner sum =
      .ok (sum.add (corner v p))) (fun v p hp heq ih hv sum => ?_) hp hfits hv sum
  have hfirst : addMinCorner sum (⟨v.map signedDigit, p⟩ : Quad).toString =
      .ok (sum.add (vmin ⟨v.map signedDigit, p⟩)) := by
    rw [addMinCorner, getMinCorner, parse_toString
      ⟨signedDigit_mem _, signedDigit_mem _, signedDigit_mem _⟩ hp]
    rfl
  have hshift : v.map shiftOut = v.map signedCarry :=
    Vector3.ext (shiftOut_eq_signedCarry hv.1) (shiftOut_eq_signedCarry hv.2.1)
      (shiftOut_eq_signedCarry hv.2.2)
  rw [hshift] at heq ih
  rw [heq, List.map_cons, List.foldlM_cons, hfirst]
  change List.foldlM addMinCorner _ _ = _
  rw [← add_vmin_corner]
  split
  next h =>
    rw [h]
    simp [corner, Vector3.add, Vector3.map, Vector3.zero, pure, Except.pure]
  next h =>
    refine ih h ?_ _
    simp only [Vector3.Forall, Vector3.map, signedCarry] at hv ⊢
    omega

/-! ### Positions -/

/-- A coordinate in cubes of `2 ^ bias` meters, cut to an integer. -/
def cell (bias : ℤ) (x : ℚ) : ℤ := truncate (x * scalb (-bias))

/-- A coordinate that a `long` can hold, with room for the two that are added. -/
def InRange (bias : ℤ) (x : ℚ) : Prop := -2 ^ 63 ≤ cell bias x ∧ cell bias x ≤ 2 ^ 63 - 3

theorem InRange.isInt64 {bias : ℤ} {x : ℚ} (h : InRange bias x) : IsInt64 (cell bias x) := by
  rw [InRange] at h
  rw [IsInt64]
  omega

/-- The cast, where it does not stop at an end of the range. -/
theorem toLong_eq {y : ℚ} (h : IsInt64 (truncate y)) : toLong y = truncate y := by
  rw [IsInt64] at h
  rw [toLong]
  omega

theorem abs_toLong_le (y : ℚ) : |toLong y| ≤ 4 ^ 32 := by
  rw [abs_le]
  rw [toLong]
  omega

/-- The exponent can be negated, unless that leaves nothing of the range. -/
theorem mul_scalb_neg {x : Double} {bias : ℤ} (hbias : IsInt32 bias)
    (hx : IsInt64 (cell bias x.val)) :
    x.val * scalb (toInt32 (-bias)) = x.val * scalb (-bias) := by
  by_cases hzero : x.val = 0
  · rw [hzero, zero_mul, zero_mul]
  by_cases hmin : bias = -2 ^ 31
  · exfalso
    have hbound : |x.val * scalb (-bias)| < 2 ^ (64 : ℤ) := by
      have hlt := abs_lt_abs_truncate (x.val * scalb (-bias))
      have hle : |(cell bias x.val : ℚ)| ≤ 2 ^ 63 := by
        exact_mod_cast abs_le.mpr ⟨hx.1, hx.2.le⟩
      rw [cell] at hle
      norm_num at hlt hle ⊢
      linarith
    have hpower : (0 : ℚ) < scalb (-bias) := zpow_pos (by decide) _
    have hlarge : (2 : ℚ) ^ (64 : ℤ) ≤ 2 ^ (-1074 + -bias : ℤ) :=
      zpow_le_zpow_right₀ (by decide) (by omega)
    rw [zpow_add₀ (by decide)] at hlarge
    rw [abs_mul, abs_of_pos hpower] at hbound
    have hle := mul_le_mul_of_nonneg_right (x.le_abs hzero) hpower.le
    exact absurd (hlarge.trans hle) (not_le.mpr hbound)
  · have hneg : IsInt32 (-bias) := by
      rw [IsInt32] at hbias ⊢
      omega
    rw [(isInt32_toInt32 _).eq_of_modEq hneg (toInt32_modEq _)]

/-- The position in cubes of its size, cut to integers. -/
theorem scale_eq {v : Vector3d} {bias : ℤ} (hbias : IsInt32 bias)
    (hv : v.Forall fun x => IsInt64 (cell bias x.val)) :
    scale v bias = v.map fun x => cell bias x.val := by
  have hcoord : ∀ x : Double, IsInt64 (cell bias x.val) →
      toLong (x.val * scalb (toInt32 (-bias))) = cell bias x.val := by
    intro x hx
    rw [mul_scalb_neg hbias hx]
    exact toLong_eq hx
  exact Vector3.ext (hcoord _ hv.1) (hcoord _ hv.2.1) (hcoord _ hv.2.2)

/-- No `double` reaches a cube of `2 ^ 1024` meters that is not at the origin. -/
theorem scale_eq_zero (v : Vector3d) {bias : ℤ} (hbias : IsInt32 bias) (h : 1024 ≤ bias) :
    scale v bias = .zero := by
  have hcoord : ∀ x : Double, cell bias x.val = 0 := by
    intro x
    have hpower : (0 : ℚ) < scalb (-bias) := zpow_pos (by decide) _
    refine truncate_eq_zero ?_
    rw [abs_mul, abs_of_pos hpower]
    calc |x.val| * scalb (-bias) < 2 ^ (1024 : ℤ) * scalb (-bias) :=
          mul_lt_mul_of_pos_right x.abs_lt hpower
      _ = 2 ^ (1024 + -bias) := (zpow_add₀ (by decide) _ _).symm
      _ ≤ 1 := zpow_le_one_of_nonpos₀ (by decide) (by omega)
  have hrange : ∀ x : Double, IsInt64 (cell bias x.val) := by
    intro x
    rw [hcoord, IsInt64]
    decide
  rw [scale_eq hbias ⟨hrange _, hrange _, hrange _⟩]
  exact Vector3.ext (hcoord _) (hcoord _) (hcoord _)

/-- The exponents of a position are `int`s. -/
theorem fits (v : Vector3d) {bias : ℤ} (hbias : IsInt32 bias) :
    bias + 2 * (quads (scale v bias) bias).length ≤ 2 ^ 31 + 1 := by
  have hint := hbias.2
  rcases lt_or_ge bias 1024 with hlt | hge
  · have hlength : (quads (scale v bias) bias).length ≤ 32 + 1 :=
      length_quads_le ⟨abs_toLong_le _, abs_toLong_le _, abs_toLong_le _⟩
    omega
  · have hlength : (quads (scale v bias) bias).length ≤ 0 + 1 := by
      rw [scale_eq_zero v hbias hge]
      exact length_quads_le ⟨by decide, by decide, by decide⟩
    omega

/-! ### Round trip -/

section RoundTrip

variable {v : Vector3d} {bias : ℤ}

/-- A multiple of `2 ^ bias` that a `long` can count to, and two more. -/
def OnGrid (bias : ℤ) (x : ℚ) : Prop :=
  ∃ n : ℤ, -2 ^ 63 ≤ n ∧ n ≤ 2 ^ 63 - 3 ∧ x = n * scalb bias

theorem scalb_mul_scalb_neg (bias : ℤ) : scalb bias * scalb (-bias) = 1 := by
  rw [scalb, scalb, ← zpow_add₀ (by decide), add_neg_cancel, zpow_zero]

/-- A position in the range is rounded to the corner of a cube. -/
theorem reconstitute_of_range (hbias : IsInt32 bias)
    (hv : v.Forall fun x => InRange bias x.val) :
    reconstitute (decompose v bias) =
      .ok (corner (v.map fun x => cell bias x.val) bias) := by
  have hscale : scale v bias = v.map fun x => cell bias x.val :=
    scale_eq hbias ⟨hv.1.isInt64, hv.2.1.isInt64, hv.2.2.isInt64⟩
  have hsum := foldlM_quads hbias (fits v hbias) (by rw [hscale]; exact hv) .zero
  rw [reconstitute, decompose, hsum, hscale]
  simp [Vector3.add, Vector3.zero]

/-- A position on the grid comes back. -/
theorem reconstitute_of_onGrid (hbias : IsInt32 bias)
    (hv : v.Forall fun x => OnGrid bias x.val) :
    reconstitute (decompose v bias) = .ok (v.map Double.val) := by
  have hcoord : ∀ x : Double, OnGrid bias x.val →
      InRange bias x.val ∧ cell bias x.val * scalb bias = x.val := by
    rintro x ⟨n, hmin, hmax, hx⟩
    have hn : cell bias x.val = n := by
      rw [cell, hx, mul_assoc, scalb_mul_scalb_neg, mul_one, truncate_intCast]
    rw [InRange, hn]
    exact ⟨⟨hmin, hmax⟩, hx.symm⟩
  rw [reconstitute_of_range hbias
    ⟨(hcoord _ hv.1).1, (hcoord _ hv.2.1).1, (hcoord _ hv.2.2).1⟩]
  exact congrArg Except.ok (Vector3.ext (hcoord _ hv.1).2 (hcoord _ hv.2.1).2 (hcoord _ hv.2.2).2)

/-- The first quad is of the size of the cube. -/
theorem head?_decompose (v : Vector3d) (bias : ℤ) :
    (decompose v bias).head? =
      some (⟨(scale v bias).map signedDigit, bias⟩ : Quad).toString := by
  rw [decompose, quads_eq]
  rfl

/-- **Round trip.** A position on the grid is taken apart into digits between minus two and one,
for exponents that count up from the bias in steps of two, and put together again. Two positions on
their grids with the same quads are the same, and so are the grids. -/
theorem reconstitute_decompose (hbias : IsInt32 bias)
    (hv : v.Forall fun x => OnGrid bias x.val) :
    (∃ list : List Quad, decompose v bias = list.map Quad.toString ∧
      (∀ q ∈ list, q.digits.Forall fun d => -2 ≤ d ∧ d ≤ 1) ∧
      list.map Quad.p = (List.range list.length).map fun k : ℕ => bias + 2 * k) ∧
    reconstitute (decompose v bias) = .ok (v.map Double.val) ∧
    ∀ (w : Vector3d) (bias' : ℤ), IsInt32 bias' → (w.Forall fun x => OnGrid bias' x.val) →
      decompose w bias' = decompose v bias → w = v ∧ bias' = bias := by
  refine ⟨⟨quads (scale v bias) bias, rfl, digits_quads _ _, map_p_quads hbias (fits v hbias)⟩,
    reconstitute_of_onGrid hbias hv, fun w bias' hbias' hw h => ?_⟩
  have hvalues := reconstitute_of_onGrid hbias' hw
  rw [h, reconstitute_of_onGrid hbias hv] at hvalues
  have hcoords := Vector3.ext_iff.mp (Except.ok.inj hvalues)
  have hheads := congrArg List.head? h
  rw [head?_decompose, head?_decompose] at hheads
  refine ⟨Vector3.ext ?_ ?_ ?_, congrArg Quad.p (Quad.toString_injective (Option.some.inj hheads))⟩
  · exact Double.ext hcoords.1.symm
  · exact Double.ext hcoords.2.1.symm
  · exact Double.ext hcoords.2.2.symm

/-- The round trip of a test. -/
theorem reconstitute_decompose_test :
    let v : Vector3d := ⟨.ofInt (-44) 0 (by decide) (by decide),
      .ofInt 123456 0 (by decide) (by decide), .ofInt 11 0 (by decide) (by decide)⟩
    reconstitute (decompose v 0) = .ok (v.map Double.val) := by
  refine (reconstitute_decompose (by decide) ⟨?_, ?_, ?_⟩).2.1
  · exact ⟨-44, by decide, by decide, by simp [Double.ofInt, scalb]⟩
  · exact ⟨123456, by decide, by decide, by simp [Double.ofInt, scalb]⟩
  · exact ⟨11, by decide, by decide, by simp [Double.ofInt, scalb]⟩

end RoundTrip

/-! ### The cube of a position -/

section Cube

/-- The position is in the cube. -/
def Contains (corner side : Vector3 ℚ) (v : Vector3d) : Prop :=
  (corner.x ≤ v.x.val ∧ v.x.val < corner.x + side.x) ∧
  (corner.y ≤ v.y.val ∧ v.y.val < corner.y + side.y) ∧
  (corner.z ≤ v.z.val ∧ v.z.val < corner.z + side.z)

/-- The side of the cubes for a bias. -/
def sideOf (bias : ℤ) : Vector3 ℚ := ⟨scalb bias, scalb bias, scalb bias⟩

/-- **The cast rounds down** what is not negative, and what is an integer. -/
theorem truncate_le_and_lt_iff (y : ℚ) :
    (truncate y ≤ y ∧ y < truncate y + 1) ↔ 0 ≤ y ∨ ∃ n : ℤ, y = n := by
  constructor
  · rintro ⟨hle, hlt⟩
    refine or_iff_not_imp_left.mpr fun hneg => ?_
    rw [truncate, if_neg hneg] at hle
    exact ⟨⌈y⌉, le_antisymm (Int.le_ceil y) hle⟩
  · rintro (hpos | ⟨n, rfl⟩)
    · rw [truncate, if_pos hpos]
      exact ⟨Int.floor_le y, Int.lt_floor_add_one y⟩
    · rw [truncate_intCast]
      exact ⟨le_refl _, lt_add_one _⟩

/-- The same for a position in cubes of `2 ^ bias` meters. -/
theorem cell_mul_le_and_lt_iff (x : ℚ) (bias : ℤ) :
    (cell bias x * scalb bias ≤ x ∧ x < cell bias x * scalb bias + scalb bias) ↔
      0 ≤ x ∨ ∃ n : ℤ, x = n * scalb bias := by
  have hpos : (0 : ℚ) < scalb bias := zpow_pos (by decide) _
  have hneg : (0 : ℚ) < scalb (-bias) := zpow_pos (by decide) _
  have hone := scalb_mul_scalb_neg bias
  have hx : x = x * scalb (-bias) * scalb bias := by
    rw [mul_assoc, mul_comm (scalb (-bias)), hone, mul_one]
  rw [cell]
  generalize hy : x * scalb (-bias) = y at hx ⊢
  have hcast := truncate_le_and_lt_iff y
  have hsum : truncate y * scalb bias + scalb bias = (truncate y + 1) * scalb bias := by ring
  rw [hsum, hx, mul_le_mul_iff_of_pos_right hpos, mul_lt_mul_iff_of_pos_right hpos, hcast,
    mul_nonneg_iff_of_pos_right hpos]
  refine or_congr_right (exists_congr fun n => ?_)
  rw [mul_left_inj' hpos.ne']

end Cube

/-! ### The names in the browser -/

section Browser

variable {v : Vector3 ℤ} {p : ℤ}

/-- One turn of the loop in the browser and on the server, for numbers of 32 bits. -/
theorem shiftOut_eq_shiftOut_iff {x : ℤ} (hx : IsInt32 x) :
    QuadSpaces.shiftOut x = shiftOut x ↔ x < 2 ^ 31 - 2 := by
  have hmod := toInt32_modEq (4 * signedCarry x)
  have hmem := isInt32_toInt32 (4 * signedCarry x)
  rw [IsInt32] at hx hmem
  rw [QuadSpaces.shiftOut_eq, shiftOut_eq_signedCarry (by omega)]
  rw [Int.ModEq] at hmod
  rw [signedCarry] at hmod hmem ⊢
  omega

/-- Behind the first turn there is no difference left. -/
theorem shiftOut_lt {x : ℤ} (hx : IsInt32 x) : IsInt32 (shiftOut x) ∧ shiftOut x < 2 ^ 31 - 2 := by
  rw [IsInt32] at hx ⊢
  rw [shiftOut_eq_signedCarry (by omega), signedCarry]
  omega

theorem isInt32_shiftOut (x : ℤ) : IsInt32 (QuadSpaces.shiftOut x) := by
  have hmem := isInt32_toInt32 (x + 2 - QuadSpaces.lowBits x)
  rw [IsInt32] at hmem ⊢
  rw [QuadSpaces.shiftOut]
  omega

/-- Where the turns are the same, so are the quads. -/
theorem quads_eq_of_lt (hp : IsInt32 p) (hfits : p + 2 * (quads v p).length ≤ 2 ^ 31 + 1)
    (hv : v.Forall fun x => IsInt32 x ∧ x < 2 ^ 31 - 2) : QuadSpaces.quads v p = quads v p := by
  refine quads_induction (P := fun v p => (v.Forall fun x => IsInt32 x ∧ x < 2 ^ 31 - 2) →
    QuadSpaces.quads v p = quads v p) (fun v p hp heq ih hv => ?_) hp hfits hv
  have hshift : v.map QuadSpaces.shiftOut = v.map shiftOut :=
    Vector3.ext ((shiftOut_eq_shiftOut_iff hv.1.1).mpr hv.1.2)
      ((shiftOut_eq_shiftOut_iff hv.2.1.1).mpr hv.2.1.2)
      ((shiftOut_eq_shiftOut_iff hv.2.2.1).mpr hv.2.2.2)
  rw [QuadSpaces.quads_eq, hshift, heq]
  split
  next => rfl
  next h =>
    rw [ih h ⟨shiftOut_lt hv.1.1, shiftOut_lt hv.2.1.1, shiftOut_lt hv.2.2.1⟩]

/-- **The quads are the same**, unless a number is one of the last two of 32 bits: the shift of the
browser takes the sum with two for a negative number. -/
theorem quads_eq_iff (hp : IsInt32 p) (hfits : p + 2 * (quads v p).length ≤ 2 ^ 31 + 1)
    (hv : v.Forall IsInt32) :
    QuadSpaces.quads v p = quads v p ↔ v.Forall fun x => x < 2 ^ 31 - 2 := by
  constructor
  · intro h
    by_contra hnot
    -- one number is shifted out differently
    have hshift : v.map QuadSpaces.shiftOut ≠ v.map shiftOut := by
      intro hsame
      obtain ⟨hx, hy, hz⟩ := Vector3.ext_iff.mp hsame
      exact hnot ⟨(shiftOut_eq_shiftOut_iff hv.1).mp hx, (shiftOut_eq_shiftOut_iff hv.2.1).mp hy,
        (shiftOut_eq_shiftOut_iff hv.2.2).mp hz⟩
    have hint : (v.map shiftOut).Forall fun x => IsInt32 x ∧ x < 2 ^ 31 - 2 :=
      ⟨shiftOut_lt hv.1, shiftOut_lt hv.2.1, shiftOut_lt hv.2.2⟩
    obtain ⟨heq, hrest⟩ := quads_turn hp hfits
    rw [heq, QuadSpaces.quads_eq] at h
    have htails := (List.cons.inj h).2
    split at htails
    next hzero =>
      split at htails
      next hzero' => exact hshift (hzero.trans hzero'.symm)
      next => exact quads_ne_nil _ _ htails.symm
    next =>
      split at htails
      next => exact QuadSpaces.quads_ne_nil _ _ htails
      next hgo =>
        -- the rests of the loops are the same function of different numbers
        rw [← quads_eq_of_lt (hrest hgo).1 (hrest hgo).2 hint] at htails
        exact hshift (QuadSpaces.quads_injective
          ⟨isInt32_shiftOut _, isInt32_shiftOut _, isInt32_shiftOut _⟩
          ⟨hint.1.1, hint.2.1.1, hint.2.2.1⟩ htails)
  · intro h
    exact quads_eq_of_lt hp hfits ⟨⟨hv.1, h.1⟩, ⟨hv.2.1, h.2.1⟩, ⟨hv.2.2, h.2.2⟩⟩

end Browser

section Names

variable {v : Vector3d} {bias : ℤ}

theorem isInt32_of_abs_le (hbias : |bias| ≤ 126) : IsInt32 bias := by
  rw [abs_le] at hbias
  rw [IsInt32]
  omega

theorem scale_of_isInt32 (hbias : IsInt32 bias) (hv : v.Forall fun x => IsInt32 (cell bias x.val)) :
    scale v bias = v.map fun x => cell bias x.val := by
  have hlong : ∀ n : ℤ, IsInt32 n → IsInt64 n := by
    intro n hn
    rw [IsInt32] at hn
    rw [IsInt64]
    omega
  exact scale_eq hbias ⟨hlong _ hv.1, hlong _ hv.2.1, hlong _ hv.2.2⟩

/-- Both start from the same numbers, and names are the same where the quads are. -/
theorem listToString_eq_iff_quads_eq (hbias : IsInt32 bias)
    (hv : v.Forall fun x => IsInt32 (cell bias x.val)) :
    QuadSpaces.listToString (QuadSpaces.decompose .exact (v.map Double.val) bias) =
        listToString (decompose v bias) ↔
      QuadSpaces.quads (v.map fun x => cell bias x.val) bias =
        quads (v.map fun x => cell bias x.val) bias := by
  have hbrowser : QuadSpaces.scale .exact (v.map Double.val) bias =
      v.map fun x => cell bias x.val := by
    have hcoord : ∀ n : ℤ, IsInt32 n → toInt32 n = n := fun n hn =>
      (isInt32_toInt32 n).eq_of_modEq hn (toInt32_modEq n)
    exact Vector3.ext (hcoord _ hv.1) (hcoord _ hv.2.1) (hcoord _ hv.2.2)
  rw [decompose, QuadSpaces.decompose, scale_of_isInt32 hbias hv, hbrowser]
  constructor
  · exact fun h => QuadSpaces.name_injective (QuadSpaces.quads_ne_nil _ _) (quads_ne_nil _ _) h
  · intro h
    rw [h]
    rfl

theorem fits_cell (hbias : IsInt32 bias) (hv : v.Forall fun x => IsInt32 (cell bias x.val)) :
    bias + 2 * (quads (v.map fun x => cell bias x.val) bias).length ≤ 2 ^ 31 + 1 := by
  rw [← scale_of_isInt32 hbias hv]
  exact fits v hbias

/-- **The browser and the server give the same names** to the cubes that 32 bits can count, except
for the last two on each axis. -/
theorem listToString_eq_iff (hbias : |bias| ≤ 126)
    (hv : v.Forall fun x => IsInt32 (cell bias x.val)) :
    QuadSpaces.listToString (QuadSpaces.decompose .exact (v.map Double.val) bias) =
        listToString (decompose v bias) ↔
      v.Forall fun x => cell bias x.val < 2 ^ 31 - 2 := by
  have hint := isInt32_of_abs_le hbias
  exact (listToString_eq_iff_quads_eq hint hv).trans (quads_eq_iff hint (fits_cell hint hv) hv)

/-- The last position on an axis that 32 bits can count to. -/
def farthest : Vector3d :=
  ⟨.ofInt (2 ^ 31 - 1) 0 (by decide) (by decide), .ofInt 0 0 (by decide) (by decide),
    .ofInt 0 0 (by decide) (by decide)⟩

theorem cell_ofInt (n : ℤ) (hn : IsInt32 n) (hk : 0 ≤ 1000) :
    cell 0 (Double.ofInt n 0 hn hk).val = n := by
  have hval : (Double.ofInt n 0 hn hk).val * scalb (-0) = n := by simp [Double.ofInt, scalb]
  rw [cell, hval, truncate_intCast]

theorem isInt32_cell_ofInt (n : ℤ) (hn : IsInt32 n) (hk : 0 ≤ 1000) :
    IsInt32 (cell 0 (Double.ofInt n 0 hn hk).val) := by
  rw [cell_ofInt]
  exact hn

/-- The cubes of one meter of positions at whole meters. -/
theorem cell_ofInts {v : Vector3 ℤ} (hv : v.Forall IsInt32) :
    (Vector3d.ofInts v hv).map (fun x => cell 0 x.val) = v :=
  Vector3.ext (cell_ofInt _ hv.1 (by decide)) (cell_ofInt _ hv.2.1 (by decide))
    (cell_ofInt _ hv.2.2 (by decide))

theorem forall_cell_ofInts {P : ℤ → Prop} {v : Vector3 ℤ} (hv : v.Forall IsInt32) :
    ((Vector3d.ofInts v hv).Forall fun x => P (cell 0 x.val)) ↔ v.Forall P := by
  conv_rhs => rw [← cell_ofInts hv]
  exact Iff.rfl

theorem isInt32_farthest : farthest.Forall fun x => IsInt32 (cell 0 x.val) :=
  ⟨isInt32_cell_ofInt _ (by decide) (by decide), isInt32_cell_ofInt _ (by decide) (by decide),
    isInt32_cell_ofInt _ (by decide) (by decide)⟩

theorem listToString_eq_iff_farthest :
    QuadSpaces.listToString (QuadSpaces.decompose .exact (farthest.map Double.val) 0) =
        listToString (decompose farthest 0) ↔
      farthest.Forall fun x => cell 0 x.val < 2 ^ 31 - 2 :=
  listToString_eq_iff (by decide) isInt32_farthest

/-- There the names are different. -/
theorem not_forall_listToString_eq : ¬∀ (bias : ℤ) (v : Vector3d), Even bias → |bias| ≤ 126 →
    (v.Forall fun x => IsInt32 (cell bias x.val)) →
    QuadSpaces.listToString (QuadSpaces.decompose .exact (v.map Double.val) bias) =
      listToString (decompose v bias) := by
  intro hall
  have hnames := hall 0 farthest Even.zero (by decide) isInt32_farthest
  have hquads := (listToString_eq_iff_quads_eq (by decide) isInt32_farthest).mp hnames
  have hlt := (quads_eq_iff (by decide) (fits_cell (by decide) isInt32_farthest)
    isInt32_farthest).mp hquads
  have hx : cell 0 farthest.x.val < 2 ^ 31 - 2 := hlt.1
  rw [farthest, cell_ofInt] at hx
  exact absurd hx (by decide)

end Names

end Experiments

end Gwems
