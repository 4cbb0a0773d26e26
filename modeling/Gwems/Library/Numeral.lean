import Mathlib

/-!
# Numerals

How a number is read that is written in a radix up to 36: a sign, and digits of any script that has
decimal digits, or Latin letters for the values from ten on. Characters are those of a `Char` of 16
bits, so that no digit beyond the first plane counts.

The numerals that `Nat.toDigits` writes are read back: `nat?_toDigits`, `int?_toString`.
-/

namespace Gwems

namespace Numeral

/-- The zeros of the scripts with decimal digits. -/
def zeros : List ℕ := [0x30, 0x660, 0x6F0, 0x7C0, 0x966, 0x9E6, 0xA66, 0xAE6, 0xB66, 0xBE6, 0xC66,
  0xCE6, 0xD66, 0xE50, 0xED0, 0xF20, 0x1040, 0x1090, 0x17E0, 0x1810, 0x1946, 0x19D0, 0x1A80, 0x1A90,
  0x1B50, 0x1BB0, 0x1C40, 0x1C50, 0xA620, 0xA8D0, 0xA900, 0xA9D0, 0xAA50, 0xABF0, 0xFF10]

/-- The first letters of the alphabets, upper and lower case, of normal and of full width. -/
def alphabets : List ℕ := [0x41, 0x61, 0xFF21, 0xFF41]

/-- The value of a digit or a letter. -/
def value? (c : Char) : Option ℕ :=
  match zeros.find? fun z => z ≤ c.toNat ∧ c.toNat < z + 10 with
  | some z => some (c.toNat - z)
  | none => (alphabets.find? fun a => a ≤ c.toNat ∧ c.toNat < a + 26).map fun a =>
    c.toNat - a + 10

/-- The value of a digit in a radix. -/
def digit? (radix : ℕ) (c : Char) : Option ℕ := (value? c).filter (· < radix)

/-- One more digit of a number. -/
def push? (radix n : ℕ) (c : Char) : Option ℕ := (digit? radix c).map (radix * n + ·)

/-- The number that digits stand for. -/
def nat? (radix : ℕ) (l : List Char) : Option ℕ := if l = [] then none else l.foldlM (push? radix) 0

/-- The number that digits with a sign stand for. -/
def int? (radix : ℕ) (l : List Char) : Option ℤ :=
  match l with
  | '-' :: digits => (nat? radix digits).map fun n : ℕ => -(n : ℤ)
  | '+' :: digits => (nat? radix digits).map Int.ofNat
  | digits => (nat? radix digits).map Int.ofNat

variable {radix : ℕ} {l : List Char}

/-! ### What is a numeral -/

theorem mem_of_foldlM_push? {m n : ℕ} (h : l.foldlM (push? radix) m = some n) :
    ∀ c ∈ l, (digit? radix c).isSome := by
  induction l generalizing m with
  | nil => simp
  | cons c l ih =>
    rw [List.foldlM_cons, Option.bind_eq_bind, Option.bind_eq_some_iff] at h
    obtain ⟨k, hk, hrest⟩ := h
    rw [push?, Option.map_eq_some_iff] at hk
    obtain ⟨d, hd, -⟩ := hk
    exact List.forall_mem_cons.mpr ⟨by rw [hd]; rfl, ih hrest⟩

/-- A number is written in digits. -/
theorem of_nat?_eq_some {n : ℕ} (h : nat? radix l = some n) :
    l ≠ [] ∧ ∀ c ∈ l, (digit? radix c).isSome := by
  rw [nat?] at h
  split at h
  next => cases h
  next hne => exact ⟨hne, mem_of_foldlM_push? h⟩

/-- A number with a sign is written in digits and signs. -/
theorem of_int?_eq_some {n : ℤ} (h : int? radix l = some n) :
    l ≠ [] ∧ ∀ c ∈ l, c = '-' ∨ c = '+' ∨ (digit? radix c).isSome := by
  unfold int? at h
  split at h
  next digits =>
    obtain ⟨m, hm, -⟩ := Option.map_eq_some_iff.mp h
    exact ⟨List.cons_ne_nil _ _,
      List.forall_mem_cons.mpr ⟨.inl rfl, fun c hc => .inr (.inr ((of_nat?_eq_some hm).2 c hc))⟩⟩
  next digits =>
    obtain ⟨m, hm, -⟩ := Option.map_eq_some_iff.mp h
    exact ⟨List.cons_ne_nil _ _, List.forall_mem_cons.mpr
      ⟨.inr (.inl rfl), fun c hc => .inr (.inr ((of_nat?_eq_some hm).2 c hc))⟩⟩
  next =>
    obtain ⟨m, hm, -⟩ := Option.map_eq_some_iff.mp h
    exact ⟨(of_nat?_eq_some hm).1, fun c hc => .inr (.inr ((of_nat?_eq_some hm).2 c hc))⟩

/-! ### Reading what was written -/

theorem digit?_digitChar {d : ℕ} (hd : d < radix) (hradix : radix ≤ 16) :
    digit? radix d.digitChar = some d := by
  have hvalue : ∀ d < 16, value? (Nat.digitChar d) = some d := by decide
  rw [digit?, hvalue d (by omega), Option.filter_some, if_pos (by simpa using hd)]

/-- **Digits are read back.** -/
theorem foldlM_push?_toDigits (h : 1 < radix) (h' : radix ≤ 16) (n : ℕ) :
    (Nat.toDigits radix n).foldlM (push? radix) 0 = some n := by
  induction n using Nat.strong_induction_on with
  | _ n ih =>
    rw [Nat.toDigits_eq_if h]
    split
    next hlt => simp [push?, digit?_digitChar hlt h']
    next hge =>
      have hdiv := ih (n / radix) (Nat.div_lt_self (by omega) h)
      have hdigit := digit?_digitChar (Nat.mod_lt n (by omega)) h'
      rw [List.foldlM_append, hdiv]
      simp only [Option.bind_eq_bind, Option.bind_some, List.foldlM_cons, List.foldlM_nil, push?,
        hdigit, Option.map_some, Option.pure_def]
      rw [Nat.div_add_mod]

theorem nat?_toDigits (h : 1 < radix) (h' : radix ≤ 16) (n : ℕ) :
    nat? radix (Nat.toDigits radix n) = some n := by
  rw [nat?, if_neg Nat.toDigits_ne_nil, foldlM_push?_toDigits h h']

/-- What is no digit of any radix is not in a numeral. -/
theorem notMem_of_nat? {n : ℕ} (h : nat? radix l = some n) {c : Char} (hc : value? c = none) :
    c ∉ l := by
  intro hmem
  have hdigit := (of_nat?_eq_some h).2 c hmem
  rw [digit?, hc] at hdigit
  cases hdigit

theorem value?_sign : value? '-' = none ∧ value? '+' = none ∧ value? '_' = none := by decide

/-- A numeral without a sign. -/
theorem int?_eq_of_nat? {n : ℕ} (h : nat? radix l = some n) : int? radix l = some (n : ℤ) := by
  unfold int?
  split
  next => exact absurd List.mem_cons_self (notMem_of_nat? h value?_sign.1)
  next => exact absurd List.mem_cons_self (notMem_of_nat? h value?_sign.2.1)
  next =>
    rw [h]
    rfl

theorem int?_toDigits (h : 1 < radix) (h' : radix ≤ 16) (n : ℕ) :
    int? radix (Nat.toDigits radix n) = some (n : ℤ) :=
  int?_eq_of_nat? (nat?_toDigits h h' n)

theorem int?_neg_toDigits (h : 1 < radix) (h' : radix ≤ 16) (n : ℕ) :
    int? radix ('-' :: Nat.toDigits radix n) = some (-(n : ℤ)) := by
  rw [int?, nat?_toDigits h h']
  rfl

/-- What is no digit of any radix is not in a numeral that was written. -/
theorem notMem_toDigits (h : 1 < radix) (h' : radix ≤ 16) {c : Char} (hc : value? c = none)
    (n : ℕ) : c ∉ Nat.toDigits radix n :=
  notMem_of_nat? (nat?_toDigits h h' n) hc

/-- The decimal form of an integer is read back. -/
theorem int?_toString (n : ℤ) : int? 10 (toString n).toList = some n := by
  cases n with
  | ofNat m =>
    have hdigits : (toString (Int.ofNat m)).toList = Nat.toDigits 10 m := Nat.toList_repr
    rw [hdigits, int?_toDigits (by decide) (by decide)]
    rfl
  | negSucc m =>
    have happend : toString (Int.negSucc m) = "-" ++ (m + 1).repr := rfl
    have hdigits : (toString (Int.negSucc m)).toList = '-' :: Nat.toDigits 10 (m + 1) := by
      rw [happend, String.toList_append, Nat.toList_repr]
      rfl
    rw [hdigits, int?_neg_toDigits (by decide) (by decide)]
    rfl

end Numeral

end Gwems
