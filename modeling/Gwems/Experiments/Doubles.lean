import Gwems.Experiments.QuadSpaces

/-!
# Powers of two as `double`s

The programs scale by `Math.scalb(1, n)` in Java and by `Math.pow(2, n)` in JavaScript. The former
is the method for `float`s, since its first argument is an `int`: the power is infinite from
`2 ^ 128` on, and zero below `2 ^ -149`. Products with an infinite power are infinite, or not a
number, and the casts make integers of these.

The numbers among the values are taken as exact.
-/

namespace Gwems

/-- The values of a `double`. -/
inductive DoubleValue
  | nan
  | infinity (negative : Bool)
  | finite (x : ℚ)
deriving DecidableEq

namespace DoubleValue

/-- `x * y`. -/
def mul : DoubleValue → DoubleValue → DoubleValue
  | .finite x, .finite y => .finite (x * y)
  | .finite x, .infinity s => if x = 0 then .nan else .infinity (xor s (decide (x < 0)))
  | .infinity s, .finite y => if y = 0 then .nan else .infinity (xor s (decide (y < 0)))
  | .infinity s, .infinity t => .infinity (xor s t)
  | .nan, _ | _, .nan => .nan

/-- `x + y`. -/
def add : DoubleValue → DoubleValue → DoubleValue
  | .finite x, .finite y => .finite (x + y)
  | .finite _, .infinity s | .infinity s, .finite _ => .infinity s
  | .infinity s, .infinity t => if s = t then .infinity s else .nan
  | .nan, _ | _, .nan => .nan

/-- `Math.floor(x)`. -/
def floor : DoubleValue → DoubleValue
  | .finite x => .finite ⌊x⌋
  | x => x

/-- `Math.abs(x)`. -/
def abs : DoubleValue → DoubleValue
  | .finite x => .finite |x|
  | .infinity _ => .infinity false
  | .nan => .nan

/-- `(long) x`. -/
def toLong : DoubleValue → ℤ
  | .finite x => Gwems.toLong x
  | .infinity negative => if negative then -2 ^ 63 else 2 ^ 63 - 1
  | .nan => 0

/-- What `x | 0` takes the remainder of. -/
def truncate : DoubleValue → ℤ
  | .finite x => Gwems.truncate x
  | .infinity _ | .nan => 0

/-- `Math.scalb(1, n)`. -/
def scalb (n : ℤ) : DoubleValue :=
  if 127 < n then .infinity false else if n < -149 then .finite 0 else .finite (2 ^ n)

/-- `Math.pow(2, n)`. -/
def pow (n : ℤ) : DoubleValue :=
  if 1023 < n then .infinity false else if n < -1074 then .finite 0 else .finite (2 ^ n)

variable {n : ℤ} {x y : ℚ} {a b : DoubleValue}

theorem scalb_of_lt (h : 127 < n) : scalb n = .infinity false := if_pos h

theorem scalb_of_mem (h : -149 ≤ n ∧ n ≤ 127) : scalb n = .finite (Gwems.scalb n) := by
  rw [scalb, if_neg (by omega), if_neg (by omega)]
  rfl

theorem scalb_of_gt (h : n < -149) : scalb n = .finite 0 := by
  rw [scalb, if_neg (by omega), if_pos h]

theorem isInt64_toLong (x : DoubleValue) : IsInt64 x.toLong := by
  cases x with
  | nan => exact ⟨by decide, by decide⟩
  | infinity s => cases s <;> exact ⟨by decide, by decide⟩
  | finite x =>
    rw [toLong, Gwems.toLong, IsInt64]
    omega

/-- What an infinite power makes of a number. -/
theorem toLong_mul_infinity (x : ℚ) : ((finite x).mul (.infinity false)).toLong =
    if x = 0 then 0 else if x < 0 then -2 ^ 63 else 2 ^ 63 - 1 := by
  rw [mul]
  split
  next => rfl
  next => simp [toLong]

/-- No multiple of an infinite power is a number. -/
theorem mul_infinity_ne_finite : (finite x).mul (.infinity false) ≠ .finite y := by
  rw [mul]
  split <;> nofun

/-- Only numbers add up to a number. -/
theorem add_eq_finite (h : a.add b = .finite x) :
    ∃ y z, a = .finite y ∧ b = .finite z ∧ x = y + z := by
  cases a with
  | nan => cases b <;> cases h
  | infinity s =>
    cases b with
    | nan => cases h
    | infinity t =>
      rw [add] at h
      split at h <;> cases h
    | finite z => cases h
  | finite y =>
    cases b with
    | nan => cases h
    | infinity t => cases h
    | finite z => exact ⟨y, z, rfl, rfl, (DoubleValue.finite.inj h).symm⟩

end DoubleValue

end Gwems
