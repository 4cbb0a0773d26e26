import Gwems.Library.SignedDigits
import Gwems.Library.Text
import Gwems.WebContent.Gwems

/-!
# `QuadSpaces.js`: names of cubes in space

`QuadSpaces.decompose` takes a position apart into quads, "low quads first": the position is scaled
to cubes of `2^bias` meters, cut to integers, and these are written in base four with digits from
-2 to 1, three at a time, until nothing is left. `listToString` joins the quads to the name of a
channel, and `surroundingSpaceNames` gives the names of the cubes around a position.

Numbers are what `Arithmetic` says of them: the code works with doubles, and most of what is proved
here does not depend on how they round. Behind the `| 0` all numbers are 32-bit integers.

A name determines the cube and its size: `decompose_injective`, `listToString_injective`.
-/

namespace Gwems

/-- A `THREE.Vector3`. -/
@[ext]
structure Vector3 (α : Type*) where
  x : α
  y : α
  z : α
deriving DecidableEq

namespace Vector3

variable {α β : Type*}

/-- Change every coordinate. -/
def map (f : α → β) (v : Vector3 α) : Vector3 β := ⟨f v.x, f v.y, f v.z⟩

/-- The vector of zeros. -/
def zero [Zero α] : Vector3 α := ⟨0, 0, 0⟩

/-- A property of every coordinate. -/
def Forall (P : α → Prop) (v : Vector3 α) : Prop := P v.x ∧ P v.y ∧ P v.z

end Vector3

/-- The arithmetic of coordinates, as far as the code uses it: `v * Math.pow(2, -bias)` cut to an
integer (to 0 where it is not finite), and `v + k * (Math.pow(2, bias) * 3.0/4.0)`. -/
structure Arithmetic (α : Type*) where
  scaled : ℤ → α → ℤ
  shifted : ℤ → ℤ → α → α

/-- Cut a number to an integer, towards zero. -/
def truncate (x : ℚ) : ℤ := if 0 ≤ x then ⌊x⌋ else ⌈x⌉

/-- Exact arithmetic. -/
def Arithmetic.exact : Arithmetic ℚ where
  scaled bias x := truncate (x * 2 ^ (-bias))
  shifted bias k x := x + k * (2 ^ bias * 3 / 4)

/-- The number `n | 0`. -/
def toInt32 (n : ℤ) : ℤ := Int.bmod n (2 ^ 32)

/-- What `toInt32` gives. -/
def IsInt32 (n : ℤ) : Prop := -2 ^ 31 ≤ n ∧ n < 2 ^ 31

theorem isInt32_toInt32 (n : ℤ) : IsInt32 (toInt32 n) := by
  have hle : -((2 ^ 32 : ℕ) / 2 : ℤ) ≤ Int.bmod n (2 ^ 32) := Int.le_bmod (by decide)
  have hlt : Int.bmod n (2 ^ 32) < ((2 ^ 32 : ℕ) + 1 : ℤ) / 2 := Int.bmod_lt (by decide)
  rw [IsInt32, toInt32]
  constructor
  · simpa using hle
  · simpa using hlt

theorem toInt32_modEq (n : ℤ) : toInt32 n ≡ n [ZMOD 2 ^ 32] := Int.bmod_emod

/-- A 32-bit integer is determined by its remainder. -/
theorem IsInt32.eq_of_modEq {m n : ℤ} (hm : IsInt32 m) (hn : IsInt32 n)
    (h : m ≡ n [ZMOD 2 ^ 32]) : m = n := by
  rw [IsInt32] at hm hn
  rw [Int.ModEq] at h
  omega

/-! ### Cutting to integers -/

theorem truncate_intCast (n : ℤ) : truncate n = n := by
  rw [truncate]
  split
  next => exact Int.floor_intCast n
  next => exact Int.ceil_intCast n

theorem abs_truncate_le (x : ℚ) : |(truncate x : ℚ)| ≤ |x| := by
  rw [truncate]
  split
  next h =>
    have hfloor : (0 : ℚ) ≤ ⌊x⌋ := by exact_mod_cast Int.floor_nonneg.mpr h
    rw [abs_of_nonneg hfloor, abs_of_nonneg h]
    exact Int.floor_le x
  next h =>
    have hx := not_le.mp h
    have hceil : (⌈x⌉ : ℚ) ≤ 0 := by exact_mod_cast Int.ceil_le.mpr (by exact_mod_cast hx.le)
    rw [abs_of_nonpos hceil, abs_of_neg hx]
    exact neg_le_neg (Int.le_ceil x)

theorem abs_lt_abs_truncate (x : ℚ) : |x| < |(truncate x : ℚ)| + 1 := by
  rw [truncate]
  split
  next h =>
    rw [abs_of_nonneg h]
    exact (Int.lt_floor_add_one x).trans_le (by linarith [le_abs_self (⌊x⌋ : ℚ)])
  next h =>
    rw [abs_of_neg (not_le.mp h)]
    have hceil := Int.ceil_lt_add_one x
    have habs := neg_abs_le (⌈x⌉ : ℚ)
    linarith

/-- Numbers that are cut to the same integer are less than one apart, or both near zero. -/
theorem abs_lt_of_truncate_eq {x y : ℚ} (h : truncate x = truncate y) : |x| < |y| + 1 := by
  have hx := abs_lt_abs_truncate x
  have hy := abs_truncate_le y
  rw [h] at hx
  linarith

theorem truncate_eq_zero {x : ℚ} (h : |x| < 1) : truncate x = 0 := by
  have hle := (abs_truncate_le x).trans_lt h
  have habs : |truncate x| < 1 := by exact_mod_cast hle
  exact Int.abs_lt_one_iff.mp habs

theorem truncate_mono : Monotone truncate := by
  intro x y h
  unfold truncate
  split
  next hx =>
    rw [if_pos (hx.trans h)]
    exact Int.floor_mono h
  next hx =>
    split
    next hy =>
      have hceil : ⌈x⌉ ≤ 0 := Int.ceil_le.mpr (by simpa using (not_le.mp hx).le)
      exact hceil.trans (Int.floor_nonneg.mpr hy)
    next => exact Int.ceil_mono h

theorem truncate_add_one_le (x : ℚ) : truncate (x + 1) ≤ truncate x + 1 := by
  by_cases hx : 0 ≤ x
  · rw [truncate, if_pos (by linarith), truncate, if_pos hx, Int.floor_add_one]
  · rw [truncate, truncate, if_neg hx]
    split
    next =>
      rw [Int.floor_add_one]
      have hle := Int.floor_le_ceil x
      omega
    next => rw [Int.ceil_add_one]

/-- A quarter is cut like the number is divided, towards zero. -/
theorem truncate_div_four (x : ℚ) : truncate (x / 4) = (truncate x).tdiv 4 := by
  have hfloor : ∀ y : ℚ, ⌊y / 4⌋ = ⌊y⌋ / 4 := fun y => by
    exact_mod_cast Int.floor_div_natCast y 4
  by_cases hx : 0 ≤ x
  · rw [truncate, if_pos (by positivity), truncate, if_pos hx,
      Int.tdiv_eq_ediv_of_nonneg (Int.floor_nonneg.mpr hx), hfloor]
  · have hneg : 0 ≤ -x := by linarith
    have hceil : ∀ y : ℚ, ⌈y⌉ = -⌊-y⌋ := fun y => by rw [Int.floor_neg, neg_neg]
    rw [truncate, if_neg (by linarith), truncate, if_neg hx, hceil, hceil, Int.neg_tdiv,
      Int.tdiv_eq_ediv_of_nonneg (Int.floor_nonneg.mpr hneg), ← neg_div, hfloor]

namespace QuadSpaces

/-! ### Quads -/

/-- A string `x_y_z_p`, taken apart. -/
structure Quad where
  digits : Vector3 ℤ
  p : ℤ
deriving DecidableEq

/-- `"" + x + "_" + y + "_" + z + "_" + p`. -/
def Quad.toString (q : Quad) : String :=
  "_".intercalate [ToString.toString q.digits.x, ToString.toString q.digits.y,
    ToString.toString q.digits.z, ToString.toString q.p]

/-- `x & 3` after `x += 2`. -/
def lowBits (x : ℤ) : ℤ := (x + 2) % 4

/-- The next `x`: `x += 2`, `x -= i1`, `x = (x >> 2) | 0`. The shift takes a 32-bit integer. -/
def shiftOut (x : ℤ) : ℤ := toInt32 (x + 2 - lowBits x) / 4

/-- The loop of `decompose`, with a bound on its turns. -/
def loop : ℕ → Vector3 ℤ → ℤ → List Quad
  | 0, _, _ => []
  | fuel + 1, v, p =>
    let v' := v.map shiftOut
    ⟨v.map fun x => lowBits x - 2, p⟩ :: if v' = .zero then [] else loop fuel v' (p + 2)

/-- What gets smaller from turn to turn. -/
def size (v : Vector3 ℤ) : ℕ := v.x.natAbs + v.y.natAbs + v.z.natAbs

/-- The quads of the loop, which ends by itself (`quads_eq`). -/
def quads (v : Vector3 ℤ) (p : ℤ) : List Quad := loop (size v + 1) v p

section Decompose

variable {α : Type*} (A : Arithmetic α)

/-- `(v.x * power) | 0` for all three coordinates. -/
def scale (v : Vector3 α) (bias : ℤ) : Vector3 ℤ := v.map fun x => toInt32 (A.scaled bias x)

/-- `QuadSpaces.decompose(v, bias)`. -/
def decompose (v : Vector3 α) (bias : ℤ) : List String :=
  (quads (scale A v bias) bias).map Quad.toString

/-- `QuadSpaces.listToString(list)`. It has one parameter, so that an offset given to it has no
effect. -/
def listToString (list : List String) : String := "[" ++ ", ".intercalate list ++ "]"

/-- The steps of `for (var x = -length; x <= lenEnd; x += length)`, in lengths. -/
def steps : List ℤ := [-1, 0, 1]

/-- The values of `tmp` for one bias. -/
def surroundings (position : Vector3 α) (bias : ℤ) : List (Vector3 α) :=
  steps.flatMap fun x => steps.flatMap fun y => steps.map fun z =>
    ⟨A.shifted bias x position.x, A.shifted bias y position.y, A.shifted bias z position.z⟩

/-- `QuadSpaces.surroundingSpaceNames(position, start, end)`. -/
def surroundingSpaceNames (position : Vector3 α) (start stop : ℤ) : JsObject :=
  let biases := (List.range (stop - start).toNat).map fun n : ℕ => start + n
  biases.foldl (fun set bias => (surroundings A position bias).foldl (fun set tmp =>
    let str := listToString (decompose A tmp bias)
    set.assign str (some str)) set) ∅

end Decompose

/-! ### The loop -/

theorem shiftOut_eq (x : ℤ) : shiftOut x = toInt32 (4 * signedCarry x) / 4 := by
  have h : x + 2 - lowBits x = 4 * signedCarry x := by
    rw [lowBits, signedCarry]
    omega
  rw [shiftOut, h]

theorem lowBits_sub_two (x : ℤ) : lowBits x - 2 = signedDigit x := rfl

/-- Behind the shift is the carry, up to multiples of `2 ^ 30`. -/
theorem four_mul_shiftOut_modEq (x : ℤ) : 4 * shiftOut x ≡ 4 * signedCarry x [ZMOD 2 ^ 32] := by
  have hmod := toInt32_modEq (4 * signedCarry x)
  rw [shiftOut_eq]
  rw [Int.ModEq] at hmod ⊢
  omega

theorem natAbs_toInt32_le (n : ℤ) : (toInt32 n).natAbs ≤ n.natAbs := by
  have hmod := toInt32_modEq n
  have hrange := isInt32_toInt32 n
  rw [Int.ModEq] at hmod
  rw [IsInt32] at hrange
  omega

@[simp] theorem shiftOut_zero : shiftOut 0 = 0 := rfl

/-- Every number gets closer to zero, also where the shift takes it to the other sign. -/
theorem natAbs_shiftOut_lt {x : ℤ} (hx : x ≠ 0) : (shiftOut x).natAbs < x.natAbs := by
  have hcarry := natAbs_signedCarry_lt hx
  have hle := natAbs_toInt32_le (4 * signedCarry x)
  have hmod := toInt32_modEq (4 * signedCarry x)
  rw [shiftOut_eq]
  rw [Int.ModEq] at hmod
  omega

/-- A step that takes every number but zero closer to zero makes the size smaller, as long as it
does not end. -/
theorem size_map_lt {f : ℤ → ℤ} (hzero : f 0 = 0) (hlt : ∀ x ≠ 0, (f x).natAbs < x.natAbs)
    {v : Vector3 ℤ} (h : v.map f ≠ .zero) : size (v.map f) < size v := by
  have hle : ∀ x, (f x).natAbs ≤ x.natAbs := by
    intro x
    by_cases hx : x = 0
    · rw [hx, hzero]
    · exact (hlt x hx).le
  have hx := hle v.x
  have hy := hle v.y
  have hz := hle v.z
  -- one of the numbers is not zero yet
  have hne : v.x ≠ 0 ∨ v.y ≠ 0 ∨ v.z ≠ 0 := by
    by_contra hall
    push Not at hall
    obtain ⟨hx, hy, hz⟩ := hall
    exact h (by simp [Vector3.map, Vector3.zero, hx, hy, hz, hzero])
  simp only [size, Vector3.map]
  rcases hne with hne | hne | hne
  · have := hlt _ hne
    omega
  · have := hlt _ hne
    omega
  · have := hlt _ hne
    omega

theorem size_shiftOut_lt {v : Vector3 ℤ} (h : v.map shiftOut ≠ .zero) :
    size (v.map shiftOut) < size v :=
  size_map_lt shiftOut_zero (fun _ hx => natAbs_shiftOut_lt hx) h

/-- The bound on the turns of the loop is never reached. -/
theorem loop_eq_of_lt {m n : ℕ} {v : Vector3 ℤ} {p : ℤ} (hm : size v < m) (hn : size v < n) :
    loop m v p = loop n v p := by
  induction m generalizing n v p with
  | zero => omega
  | succ m ih =>
    obtain ⟨n, rfl⟩ : ∃ k, n = k + 1 := ⟨n - 1, by omega⟩
    simp only [loop]
    split
    next => rfl
    next h =>
      have hlt := size_shiftOut_lt h
      rw [ih (n := n) (by omega) (by omega)]

/-- **The loop of `decompose` ends**: the bound on the turns can be left out of the equation for
it. -/
theorem quads_eq (v : Vector3 ℤ) (p : ℤ) :
    quads v p = ⟨v.map signedDigit, p⟩ ::
      if v.map shiftOut = .zero then [] else quads (v.map shiftOut) (p + 2) := by
  conv_lhs => rw [quads, loop]
  simp only [lowBits_sub_two]
  split
  next => rfl
  next h =>
    have hlt := size_shiftOut_lt h
    rw [quads, loop_eq_of_lt hlt (Nat.lt_succ_self _)]

/-- Induction along the turns of the loop. -/
theorem quads_induction {P : Vector3 ℤ → ℤ → Prop}
    (turn : ∀ v p, (v.map shiftOut ≠ .zero → P (v.map shiftOut) (p + 2)) → P v p)
    (v : Vector3 ℤ) (p : ℤ) : P v p := by
  induction hn : size v using Nat.strong_induction_on generalizing v p with
  | _ n ih =>
    subst hn
    exact turn v p fun h => ih _ (size_shiftOut_lt h) _ _ rfl

theorem quads_ne_nil (v : Vector3 ℤ) (p : ℤ) : quads v p ≠ [] := by
  rw [quads_eq]
  exact List.cons_ne_nil _ _

/-- The powers count up from the first one. -/
theorem head?_quads (v : Vector3 ℤ) (p : ℤ) : (quads v p).head?.map Quad.p = some p := by
  rw [quads_eq]
  rfl

/-! ### Names determine cubes -/

/-- A loop that writes the lowest digits down and shifts the numbers: the digits of one coordinate
stand for its number, up to the multiples that the shift is exact to. -/
theorem ofSignedDigits_of_turn {quads : Vector3 ℤ → ℤ → List Quad} {shift next : ℤ → ℤ} {m : ℤ}
    (turn : ∀ v p, quads v p = ⟨v.map signedDigit, p⟩ ::
      if v.map shift = .zero then [] else quads (v.map shift) (next p))
    (hzero : shift 0 = 0) (hlt : ∀ x ≠ 0, (shift x).natAbs < x.natAbs)
    (hshift : ∀ x, 4 * shift x ≡ 4 * signedCarry x [ZMOD m]) {c : Vector3 ℤ → ℤ}
    (hc : ∀ f v, c (Vector3.map f v) = f (c v)) (v : Vector3 ℤ) (p : ℤ) :
    ofSignedDigits ((quads v p).map fun q => c q.digits) ≡ c v [ZMOD m] := by
  induction hn : size v using Nat.strong_induction_on generalizing v p with
  | _ n ih =>
    subst hn
    have hrest : ofSignedDigits ((if v.map shift = .zero then []
        else quads (v.map shift) (next p)).map fun q => c q.digits) ≡ shift (c v) [ZMOD m] := by
      rw [← hc shift v]
      split
      next h =>
        have hconst := hc (fun _ => 0) .zero
        have hcoord : c (Vector3.zero : Vector3 ℤ) = 0 := hconst
        rw [h, hcoord]
        exact Int.ModEq.refl _
      next h => exact ih _ (size_map_lt hzero hlt h) _ _ rfl
    rw [turn, List.map_cons, ofSignedDigits_cons, hc]
    calc signedDigit (c v) + 4 * _ ≡ signedDigit (c v) + 4 * shift (c v) [ZMOD m] :=
          (hrest.mul_left 4).add_left _
      _ ≡ signedDigit (c v) + 4 * signedCarry (c v) [ZMOD m] := (hshift (c v)).add_left _
      _ = c v := signedDigit_add_signedCarry (c v)

/-- The digits of one coordinate stand for its number, up to multiples of `2 ^ 32`. -/
theorem ofSignedDigits_quads {c : Vector3 ℤ → ℤ} (hc : ∀ f v, c (Vector3.map f v) = f (c v))
    (v : Vector3 ℤ) (p : ℤ) :
    ofSignedDigits ((quads v p).map fun q => c q.digits) ≡ c v [ZMOD 2 ^ 32] :=
  ofSignedDigits_of_turn quads_eq shiftOut_zero (fun _ hx => natAbs_shiftOut_lt hx)
    four_mul_shiftOut_modEq hc v p

/-- Vectors of 32-bit integers with the same quads are the same. -/
theorem quads_injective {v w : Vector3 ℤ} {p q : ℤ} (hv : v.Forall IsInt32)
    (hw : w.Forall IsInt32) (h : quads v p = quads w q) : v = w := by
  have hcoord : ∀ c : Vector3 ℤ → ℤ, (∀ f v, c (Vector3.map f v) = f (c v)) →
      c v ≡ c w [ZMOD 2 ^ 32] := fun c hc => by
    have hvalue := ofSignedDigits_quads hc v p
    rw [h] at hvalue
    exact hvalue.symm.trans (ofSignedDigits_quads hc w q)
  ext
  · exact hv.1.eq_of_modEq hw.1 (hcoord Vector3.x fun _ _ => rfl)
  · exact hv.2.1.eq_of_modEq hw.2.1 (hcoord Vector3.y fun _ _ => rfl)
  · exact hv.2.2.eq_of_modEq hw.2.2 (hcoord Vector3.z fun _ _ => rfl)

/-- The digits of one coordinate are digits. -/
theorem signedDigit_of_mem_quads {c : Vector3 ℤ → ℤ} (hc : ∀ f v, c (Vector3.map f v) = f (c v))
    (v : Vector3 ℤ) (p : ℤ) : ∀ d ∈ (quads v p).map fun q => c q.digits, -2 ≤ d ∧ d ≤ 1 := by
  induction v, p using quads_induction with
  | turn v p ih =>
    rw [quads_eq, List.map_cons, List.forall_mem_cons, hc]
    refine ⟨signedDigit_mem _, ?_⟩
    split
    next h => simp
    next h => exact ih h

/-- **A short name is a name near the origin**: a 32-bit coordinate whose digits are at most fifteen
is not larger than their number allows. -/
theorem three_mul_abs_le_of_length_quads {c : Vector3 ℤ → ℤ}
    (hc : ∀ f v, c (Vector3.map f v) = f (c v)) {v : Vector3 ℤ} {p : ℤ} (hv : IsInt32 (c v))
    {n : ℕ} (hn : n ≤ 15) (h : (quads v p).length ≤ n) : 3 * |c v| ≤ 2 * (4 ^ n - 1) := by
  have hvalue := ofSignedDigits_quads hc v p
  have hbound := three_mul_abs_ofSignedDigits_le (signedDigit_of_mem_quads hc v p)
  rw [List.length_map] at hbound
  have hmono : (4 : ℤ) ^ (quads v p).length ≤ 4 ^ n := pow_le_pow_right₀ (by decide) h
  have hmono' : (4 : ℤ) ^ n ≤ 4 ^ 15 := pow_le_pow_right₀ (by decide) hn
  -- the digits stand for a 32-bit integer too, which is then the coordinate
  have hsmall : IsInt32 (ofSignedDigits ((quads v p).map fun q => c q.digits)) := by
    have habs : |ofSignedDigits ((quads v p).map fun q => c q.digits)| ≤ 2 ^ 30 := by
      linarith
    obtain ⟨hneg, hpos⟩ := abs_le.mp habs
    rw [IsInt32]
    omega
  rw [← hsmall.eq_of_modEq hv hvalue]
  linarith

/-- A character of a quad is a digit, a sign or an underscore. -/
theorem Quad.mem_toList_toString {q : Quad} {c : Char} (h : c ∈ q.toString.toList) :
    c = '_' ∨ c = '-' ∨ c.isDigit = true := by
  simp only [toString, String.toList_intercalate, List.map_cons, List.map_nil,
    List.intercalate_cons_cons, List.intercalate_singleton, List.mem_append, or_assoc] at h
  have hsep : c ∈ "_".toList → c = '_' := by simp
  rcases h with h | h | h | h | h | h | h
  all_goals first
    | exact .inl (hsep h)
    | exact .inr (Text.mem_toList_toString_int h)

/-- The pieces of a quad are free of underscores. -/
theorem Quad.underscore_notMem (q : Quad) : ∀ t ∈ [ToString.toString q.digits.x,
    ToString.toString q.digits.y, ToString.toString q.digits.z, ToString.toString q.p],
    '_' ∉ t.toList := by
  have hfree : ∀ n : ℤ, '_' ∉ (ToString.toString n).toList := fun n hn => by
    rcases Text.mem_toList_toString_int hn with hc | hc
    · exact absurd hc (by decide)
    · exact absurd hc (by decide)
  intro t ht
  simp only [List.mem_cons, List.not_mem_nil, or_false] at ht
  rcases ht with rfl | rfl | rfl | rfl <;> exact hfree _

theorem Quad.toString_injective {q r : Quad} (h : q.toString = r.toString) : q = r := by
  have hlist := Text.intercalate_injective (c := '_') (r := []) (by simp) (by simp)
    q.underscore_notMem r.underscore_notMem (List.cons_ne_nil _ _) (List.cons_ne_nil _ _) h
  simp only [List.cons.injEq, and_true] at hlist
  obtain ⟨hx, hy, hz, hp⟩ := hlist
  obtain ⟨⟨qx, qy, qz⟩, qp⟩ := q
  obtain ⟨⟨rx, ry, rz⟩, rp⟩ := r
  obtain rfl := Text.toString_int_injective hx
  obtain rfl := Text.toString_int_injective hy
  obtain rfl := Text.toString_int_injective hz
  obtain rfl := Text.toString_int_injective hp
  rfl

/-- The name of a list of quads. -/
def name (list : List Quad) : String := listToString (list.map Quad.toString)

/-- **A name determines its quads.** -/
theorem name_injective {k l : List Quad} (hk : k ≠ []) (hl : l ≠ []) (h : name k = name l) :
    k = l := by
  have hfree : ∀ m : List Quad, ∀ s ∈ m.map Quad.toString, ',' ∉ s.toList := by
    intro m s hs hc
    obtain ⟨q, -, rfl⟩ := List.mem_map.mp hs
    rcases Quad.mem_toList_toString hc with hc | hc | hc
    · exact absurd hc (by decide)
    · exact absurd hc (by decide)
    · exact absurd hc (by decide)
  have hjoined : ", ".intercalate (k.map Quad.toString) =
      ", ".intercalate (l.map Quad.toString) := by
    have hlist := congrArg String.toList h
    simp only [name, listToString, String.toList_append] at hlist
    exact String.toList_injective (List.append_cancel_left (List.append_cancel_right hlist))
  have hstrings := Text.intercalate_injective (c := ',') (r := [' ']) (by simp) (by decide)
    (hfree k) (hfree l) (by simpa using hk) (by simpa using hl) hjoined
  exact List.map_injective_iff.mpr (fun _ _ h => Quad.toString_injective h) hstrings

theorem name_quads_inj {v w : Vector3 ℤ} {m n : ℤ} (hv : v.Forall IsInt32)
    (hw : w.Forall IsInt32) : name (quads v m) = name (quads w n) ↔ m = n ∧ v = w := by
  constructor
  · intro h
    have hquads := name_injective (quads_ne_nil _ _) (quads_ne_nil _ _) h
    have hhead := congrArg (fun l => l.head?.map Quad.p) hquads
    simp only [head?_quads, Option.some_inj] at hhead
    exact ⟨hhead, quads_injective hv hw hquads⟩
  · rintro ⟨rfl, rfl⟩
    rfl

section Decompose

variable {α : Type*} {A : Arithmetic α} {v w : Vector3 α} {bias bias' : ℤ}

theorem forall_isInt32_scale (v : Vector3 α) (bias : ℤ) : (scale A v bias).Forall IsInt32 :=
  ⟨isInt32_toInt32 _, isInt32_toInt32 _, isInt32_toInt32 _⟩

/-- **A name determines the cube and its size**: two positions have one name at two biases exactly
if the biases are the same and the positions are in the same cube. -/
theorem listToString_decompose_inj :
    listToString (decompose A v bias) = listToString (decompose A w bias') ↔
      bias = bias' ∧ scale A v bias = scale A w bias' :=
  name_quads_inj (forall_isInt32_scale v bias) (forall_isInt32_scale w bias')

end Decompose

/-! ### The names on the server -/

theorem Quad.three_le_length_toString (q : Quad) : 3 ≤ q.toString.length := by
  have hpieces : q.toString = ToString.toString q.digits.x ++ "_" ++ ToString.toString q.digits.y ++
      "_" ++ ToString.toString q.digits.z ++ "_" ++ ToString.toString q.p := by
    simp [toString, String.append_assoc]
  rw [hpieces]
  simp only [String.length_append]
  have hsep : "_".length = 1 := rfl
  omega

theorem three_le_length_intercalate {list : List Quad} (h : list ≠ []) :
    3 ≤ (", ".intercalate (list.map Quad.toString)).length := by
  obtain ⟨q, list, rfl⟩ := List.exists_cons_of_ne_nil h
  have hq := q.three_le_length_toString
  rw [List.map_cons]
  cases list with
  | nil => simpa using hq
  | cons r list =>
    rw [List.map_cons, String.intercalate_cons_cons]
    simp only [String.length_append]
    omega

theorem toList_name (list : List Quad) :
    (name list).toList = '[' :: ((", ".intercalate (list.map Quad.toString)).toList ++ [']']) := by
  simp [name, listToString]

/-- The server takes a name as it is. -/
theorem denotes_name {list : List Quad} (h : list ≠ []) {c : String} :
    GWEMS.Denotes (name list) c ↔ c = name list := by
  have hlength : 4 ≤ javaLength (name list) := by
    refine le_trans ?_ (length_le_javaLength _)
    rw [name, listToString, String.length_append, String.length_append]
    have hinner := three_le_length_intercalate h
    have hopen : "[".length = 1 := rfl
    omega
  have hnone : name list ≠ "none" := by
    intro hnone
    have hhead := congrArg (fun s => s.toList.head?) hnone
    simp [toList_name] at hhead
  have htrim : javaTrim (name list) = name list :=
    javaTrim_eq_self (toList_name list) (by decide) (by decide)
  refine ⟨fun hd => hd.2.2.symm.trans htrim, ?_⟩
  rintro rfl
  exact ⟨hlength, hnone, htrim⟩

theorem name_ne_proto (list : List Quad) : name list ≠ "__proto__" := by
  intro hproto
  have hhead := congrArg (fun s => s.toList.head?) hproto
  simp [toList_name] at hhead

theorem name_length_ne_zero (list : List Quad) : (name list).length ≠ 0 := by
  rw [← String.length_toList, toList_name]
  simp

/-! ### Surroundings -/

section Surroundings

variable {α : Type*} {A : Arithmetic α} {position : Vector3 α} {bias : ℤ} {key : String}

theorem mem_surroundings {tmp : Vector3 α} :
    tmp ∈ surroundings A position bias ↔ ∃ x ∈ steps, ∃ y ∈ steps, ∃ z ∈ steps,
      tmp = ⟨A.shifted bias x position.x, A.shifted bias y position.y,
        A.shifted bias z position.z⟩ := by
  simp only [surroundings, List.mem_flatMap, List.mem_map, eq_comm]

/-- **The names of the surroundings** of a position for one bias. -/
theorem mem_surroundingSpaceNames :
    key ∈ (surroundingSpaceNames A position bias (bias + 1)).keys ↔
      ∃ tmp ∈ surroundings A position bias, key = listToString (decompose A tmp bias) := by
  have hone : (List.range (bias + 1 - bias).toNat).map (fun n : ℕ => bias + n) = [bias] := by
    simp
  have hnames : "__proto__" ∉ (surroundings A position bias).map
      fun tmp => listToString (decompose A tmp bias) := by
    intro hmem
    obtain ⟨tmp, -, htmp⟩ := List.mem_map.mp hmem
    exact name_ne_proto _ htmp
  rw [surroundingSpaceNames, hone, List.foldl_cons, List.foldl_nil]
  have hfold := JsObject.mem_keys_foldl_assign some hnames ∅ (k := key)
  rw [List.foldl_map] at hfold
  rw [hfold, List.mem_map]
  have hempty : key ∉ (∅ : JsObject).keys := by simp [JsObject.mem_keys]
  rw [or_iff_right hempty]
  exact exists_congr fun tmp => and_congr_right fun _ => eq_comm

end Surroundings

end QuadSpaces

end Gwems
