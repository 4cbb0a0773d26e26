import Mathlib

/-!
# Integers in base four with digits from minus two to one

Every integer is `signedDigit x + 4 * signedCarry x` with a digit between `-2` and `1`, and the
carry is closer to zero than the integer is, so that repeated division ends.
`ofSignedDigits` is the integer that a list of digits stands for, lowest digit first.
-/

namespace Gwems

/-- The lowest digit. -/
def signedDigit (x : ℤ) : ℤ := (x + 2) % 4 - 2

/-- What is left after the lowest digit is taken away and the rest divided by four. -/
def signedCarry (x : ℤ) : ℤ := (x + 2) / 4

theorem signedDigit_add_signedCarry (x : ℤ) : signedDigit x + 4 * signedCarry x = x := by
  rw [signedDigit, signedCarry]
  omega

theorem signedDigit_mem (x : ℤ) : -2 ≤ signedDigit x ∧ signedDigit x ≤ 1 := by
  rw [signedDigit]
  omega

@[simp] theorem signedCarry_zero : signedCarry 0 = 0 := rfl

/-- The division gets closer to zero. -/
theorem natAbs_signedCarry_lt {x : ℤ} (hx : x ≠ 0) : (signedCarry x).natAbs < x.natAbs := by
  rw [signedCarry]
  omega

/-- The integer that a list of digits stands for, lowest digit first. -/
def ofSignedDigits (digits : List ℤ) : ℤ := digits.foldr (fun d n => d + 4 * n) 0

@[simp] theorem ofSignedDigits_nil : ofSignedDigits [] = 0 := rfl

@[simp] theorem ofSignedDigits_cons (d : ℤ) (digits : List ℤ) :
    ofSignedDigits (d :: digits) = d + 4 * ofSignedDigits digits := rfl

/-- A list of digits stands for an integer that is not larger than its length allows. -/
theorem three_mul_abs_ofSignedDigits_le {digits : List ℤ}
    (h : ∀ d ∈ digits, -2 ≤ d ∧ d ≤ 1) :
    3 * |ofSignedDigits digits| ≤ 2 * (4 ^ digits.length - 1) := by
  induction digits with
  | nil => simp
  | cons d digits ih =>
    obtain ⟨hd, hdigits⟩ := List.forall_mem_cons.mp h
    have ih := ih hdigits
    have habs : |d| ≤ 2 := abs_le.mpr ⟨hd.1, by omega⟩
    have hsum := abs_add_le d (4 * ofSignedDigits digits)
    rw [abs_mul, abs_of_pos (by decide : (0 : ℤ) < 4)] at hsum
    rw [ofSignedDigits_cons, List.length_cons, pow_succ]
    linarith

end Gwems
