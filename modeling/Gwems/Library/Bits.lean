import Mathlib

/-!
# Leading zeros

A sequence of bytes is a sequence of bits, the highest bit of each byte first, and a binary number.
`leadingZeros` counts the zeros that the bits begin with: eight for each zero byte in front, and
those of the first byte that is not zero (`leadingZeros_replicate_append`). As for the number, it
says how far below its bound it is: `le_leadingZeros_iff`.
-/

namespace Gwems

namespace Bits

/-- The bits of a byte, the highest one first. -/
def ofByte (b : UInt8) : List Bool := (List.range 8).map b.toBitVec.getMsbD

/-- The bits of a sequence of bytes. -/
def ofBytes (bytes : List UInt8) : List Bool := bytes.flatMap ofByte

/-- The number of zeros that the bits begin with. -/
def leadingZeros (bytes : List UInt8) : ℕ := ((ofBytes bytes).takeWhile (· = false)).length

/-- The number that a sequence of bytes is, the highest byte first. -/
def value : List UInt8 → ℕ
  | [] => 0
  | b :: bytes => b.toNat * 2 ^ (8 * bytes.length) + value bytes

variable {b : UInt8} {bytes rest : List UInt8} {k : ℕ}

/-! ### Byte by byte -/

/-- A fact about all bytes, one after the other. -/
theorem forall_byte {P : UInt8 → Prop} (h : ∀ n < 256, P (UInt8.ofNat n)) (b : UInt8) : P b := by
  have hb := h b.toNat b.toNat_lt
  rwa [UInt8.ofNat_toNat] at hb

theorem length_ofByte (b : UInt8) : (ofByte b).length = 8 := by
  rw [ofByte, List.length_map, List.length_range]

theorem le_leadingZeros_singleton_iff (b : UInt8) :
    ∀ k ≤ 8, k ≤ leadingZeros [b] ↔ b.toNat < 2 ^ (8 - k) :=
  forall_byte (P := fun b => ∀ k ≤ 8, k ≤ leadingZeros [b] ↔ b.toNat < 2 ^ (8 - k))
    (by decide +kernel) b

theorem leadingZeros_singleton_lt (hb : b ≠ 0) : leadingZeros [b] < 8 := by
  rw [← not_le, le_leadingZeros_singleton_iff b 8 le_rfl]
  have hnat : b.toNat ≠ 0 := fun h => hb (UInt8.toNat_inj.mp h)
  omega

/-- A zero byte counts eight. -/
theorem leadingZeros_zero_cons (bytes : List UInt8) :
    leadingZeros (0 :: bytes) = 8 + leadingZeros bytes := by
  have hzero : ofByte 0 = List.replicate 8 false := by decide
  rw [leadingZeros, ofBytes, List.flatMap_cons, hzero, ← ofBytes]
  simp [leadingZeros]
  omega

/-- Behind a byte that is not zero nothing counts. -/
theorem leadingZeros_cons_of_ne_zero (hb : b ≠ 0) (bytes : List UInt8) :
    leadingZeros (b :: bytes) = leadingZeros [b] := by
  have hlt := leadingZeros_singleton_lt hb
  rw [leadingZeros, ofBytes, List.flatMap_singleton] at hlt
  rw [leadingZeros, leadingZeros, ofBytes, ofBytes, List.flatMap_cons, List.flatMap_singleton,
    List.takeWhile_append, length_ofByte, if_neg (by omega)]

/-- **Zero bytes in front.** -/
theorem leadingZeros_replicate_append (z : ℕ) (bytes : List UInt8) :
    leadingZeros (List.replicate z 0 ++ bytes) = 8 * z + leadingZeros bytes := by
  induction z with
  | zero => simp
  | succ z ih =>
    rw [List.replicate_succ, List.cons_append, leadingZeros_zero_cons, ih]
    omega

/-- A sequence that is not all zeros begins with zero bytes and a byte that is not zero. -/
theorem exists_eq_replicate_append (h : ∃ b ∈ bytes, b ≠ 0) :
    ∃ z b rest, b ≠ 0 ∧ bytes = List.replicate z 0 ++ b :: rest := by
  induction bytes with
  | nil => simp at h
  | cons b bytes ih =>
    by_cases hb : b = 0
    · obtain ⟨z, c, rest, hc, rfl⟩ := ih (by simpa [hb] using h)
      exact ⟨z + 1, c, rest, hc, by rw [hb, List.replicate_succ, List.cons_append]⟩
    · exact ⟨0, b, bytes, hb, rfl⟩

/-! ### The number -/

theorem value_lt (bytes : List UInt8) : value bytes < 2 ^ (8 * bytes.length) := by
  induction bytes with
  | nil => simp [value]
  | cons b bytes ih =>
    have hb : b.toNat + 1 ≤ 2 ^ 8 := b.toNat_lt
    calc value (b :: bytes) < (b.toNat + 1) * 2 ^ (8 * bytes.length) := by rw [value]; linarith
      _ ≤ 2 ^ 8 * 2 ^ (8 * bytes.length) := Nat.mul_le_mul_right _ hb
      _ = 2 ^ (8 * (b :: bytes).length) := by rw [← pow_add, List.length_cons]; congr 1; omega

/-- **Leading zeros of a number.** It has at least `k` of them if it is below the `2 ^ k`-th part of
its bound. -/
theorem le_leadingZeros_iff (hk : k ≤ 8 * bytes.length) :
    k ≤ leadingZeros bytes ↔ value bytes < 2 ^ (8 * bytes.length - k) := by
  induction bytes generalizing k with
  | nil =>
    obtain rfl : k = 0 := by simpa using hk
    simp [value]
  | cons b bytes ih =>
    rw [List.length_cons] at hk ⊢
    have hlt := value_lt bytes
    rw [value]
    by_cases hb : b = 0
    · subst hb
      rw [leadingZeros_zero_cons, UInt8.toNat_zero, zero_mul, zero_add]
      by_cases hk8 : k ≤ 8
      · refine iff_of_true (by omega) (hlt.trans_le ?_)
        exact Nat.pow_le_pow_right (by decide) (by omega)
      · have hrest := ih (k := k - 8) (by omega)
        have hexp : 8 * (bytes.length + 1) - k = 8 * bytes.length - (k - 8) := by omega
        rw [hexp, ← hrest]
        omega
    · rw [leadingZeros_cons_of_ne_zero hb]
      have hpos : 1 ≤ b.toNat := Nat.one_le_iff_ne_zero.mpr fun h => hb (UInt8.toNat_inj.mp h)
      by_cases hk8 : k ≤ 8
      · -- the first byte decides
        have hexp : 8 * (bytes.length + 1) - k = (8 - k) + 8 * bytes.length := by omega
        rw [le_leadingZeros_singleton_iff b k hk8, hexp, pow_add]
        constructor
        · intro h
          have hle : (b.toNat + 1) * 2 ^ (8 * bytes.length) ≤
              2 ^ (8 - k) * 2 ^ (8 * bytes.length) := Nat.mul_le_mul_right _ h
          linarith
        · intro h
          exact lt_of_mul_lt_mul_right ((Nat.le_add_right _ _).trans_lt h) (Nat.zero_le _)
      · have hsmall := leadingZeros_singleton_lt hb
        refine iff_of_false (by omega) (not_lt.mpr ?_)
        calc 2 ^ (8 * (bytes.length + 1) - k) ≤ 2 ^ (8 * bytes.length) :=
              Nat.pow_le_pow_right (by decide) (by omega)
          _ ≤ b.toNat * 2 ^ (8 * bytes.length) := Nat.le_mul_of_pos_left _ hpos
          _ ≤ b.toNat * 2 ^ (8 * bytes.length) + value bytes := Nat.le_add_right _ _

end Bits

end Gwems
