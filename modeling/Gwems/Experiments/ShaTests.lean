import Gwems.Library.Bits
import Gwems.Library.Odometer
import Gwems.Library.Sha256

/-!
# `ShaTests.java`, `ScanStringHash.java`: one key after the other

`ShaTests` searches for a key that gives a user a high level: the level is the number of zeros that
the hash of the hash of both begins with (`exists_calcLevel_digest`). `calcLevel` looks for a byte
that is not zero before it looks whether there is a byte, so it throws if all bytes are zero, and
its `int` overflows where `2 ^ 28` of them are (`calcLevel_eq_some_iff`).

Both programs try keys over the base64 alphabet and "increment the key" in the same loop. It turns
the last letter, and goes on to the one in front while letters come back to `A`. When it stops at
the first letter (`i == 0`) the key gets a `B` in front.

But it stops there because that letter did not come back to `A`; if all letters did, it would have
run to its end. So keys get longer as soon as their first letter changes: from `n` letters `A` on,
all keys of `n` letters that begin with `A` are tried (`exists_keys_eq`), and of the others none
(`head?_keys`). No key is tried twice (`keys_injective`).
-/

namespace Gwems

namespace ShaTests

open Odometer (next Full)
open Bits

/-! ### Bytes -/

/-- The base64 alphabet. -/
def base64 : List Char := "ABCDEFGHIJKLMNOPQRSTUVWXYZabcdefghijklmnopqrstuvwxyz0123456789+/".toList

/-- The array `toBase64`. -/
def toBase64 : List UInt8 := base64.map fun c => UInt8.ofNat c.toNat

/-- The array `reverse64`, which has zeros for the bytes that are not in the alphabet. -/
def reverse64 (b : UInt8) : UInt8 :=
  if b ∈ toBase64 then UInt8.ofNat (toBase64.idxOf b) else 0

/-- The letter of a digit. -/
def letter (d : ℕ) : UInt8 := toBase64.getD d 0

/-! ### Levels -/

/-- `getBytes(ec.utf8)`. -/
def utf8 (s : String) : List UInt8 := s.toList.flatMap String.utf8EncodeChar

/-- "Let's 'adjust' the key": what is not in the alphabet becomes `A`. -/
def adjust (keyBytes : List UInt8) : List UInt8 :=
  keyBytes.map fun b => letter (reverse64 b).toNat

/-- The hash of a key for a user. -/
def digest (sha256 : HashFunction) (user key : String) : List UInt8 :=
  sha256 (sha256 (utf8 user ++ adjust (utf8 key)))

/-- `while (bytes[byteval] == 0 && byteval < bytes.length)`, from a place on. The byte is read
before the place is compared with the length, so behind the last byte the loop throws. -/
def skipZeros (bytes : List UInt8) (byteval : ℕ) : Option ℕ :=
  match bytes[byteval]? with
  | some b =>
    if b = 0 ∧ byteval < bytes.length then skipZeros bytes (byteval + 1) else some byteval
  | none => none
termination_by bytes.length - byteval

/-- `while (((tmp & mask) == 0) && (mask != 0))`, from a mask on: the value of `bitval` at its
end. -/
def skipBits (tmp : Int32) (mask bitval : ℕ) : ℕ :=
  if tmp &&& Int32.ofNat mask = 0 ∧ mask ≠ 0 then skipBits tmp (mask >>> 1) (bitval + 1) else bitval
termination_by mask
decreasing_by
  rw [Nat.shiftRight_one]
  omega

/-- `calcLevel(bytes)`. The bytes have signs, and the level is an `int` too. -/
def calcLevel (bytes : List UInt8) : Option ℤ := do
  let byteval ← skipZeros bytes 0
  let b ← bytes[byteval]?
  let tmp := b.toInt8.toInt32
  let bitval := skipBits tmp 0x80 0
  return (Int32.ofNat byteval * 8 + Int32.ofNat bitval).toInt

/-! ### The search -/

/-- What the loop makes of a byte. -/
def turn (b : UInt8) : UInt8 :=
  let b := reverse64 b + 1
  let b := if 64 ≤ b then 0 else b
  letter b.toNat

/-- The loop over the bytes in front of a place, from the last one on: the bytes that it leaves, and
the place where it stops, if it does not run to its end. -/
def loop (keyBytes : List UInt8) : ℕ → List UInt8 × Option ℕ
  | 0 => (keyBytes, none)
  | i + 1 =>
    let b := turn (keyBytes.getD i 0)
    let keyBytes := keyBytes.set i b
    if b ≠ letter 0 then (keyBytes, some i) else loop keyBytes i

/-- "Increment the key. Here's just one way." -/
def increment (keyBytes : List UInt8) : List UInt8 :=
  match loop keyBytes keyBytes.length with
  | (keyBytes, some 0) => letter 1 :: keyBytes
  | (keyBytes, _) => keyBytes

/-- `new String(keyBytes)`, for bytes below 128. -/
def text (keyBytes : List UInt8) : List Char := keyBytes.map fun b => Char.ofNat b.toNat

/-- The keys that are tried, from the key of `n` letters `A` on. -/
def keys (n k : ℕ) : List Char := text (increment^[k] (List.replicate n (letter 0)))

/-! ### Levels and leading zeros -/

section Levels

variable {b : UInt8} {bytes rest : List UInt8} {z : ℕ}

/-- The sign makes no difference: the mask does not get to it. -/
theorem skipBits_toInt32 (b : UInt8) : skipBits b.toInt8.toInt32 0x80 0 = leadingZeros [b] :=
  forall_byte (P := fun b => skipBits b.toInt8.toInt32 0x80 0 = leadingZeros [b])
    (by decide +kernel) b

theorem skipZeros_of_forall_eq_zero (h : ∀ b ∈ bytes, b = 0) (byteval : ℕ) :
    skipZeros bytes byteval = none := by
  fun_induction skipZeros bytes byteval with
  | case1 byteval b hb hloop ih => exact ih
  | case2 byteval b hb hstop =>
    exact absurd ⟨h b (List.mem_of_getElem? hb), (List.getElem?_eq_some_iff.mp hb).1⟩ hstop
  | case3 => rfl

theorem getElem?_replicate_append : (List.replicate z 0 ++ b :: rest)[z]? = some b := by
  rw [List.getElem?_append_right (by simp)]
  simp

/-- The loop stops at the first byte that is not zero. -/
theorem skipZeros_of_le (hb : b ≠ 0) {byteval : ℕ} (h : byteval ≤ z) :
    skipZeros (List.replicate z 0 ++ b :: rest) byteval = some z := by
  fun_induction skipZeros (List.replicate z 0 ++ b :: rest) byteval with
  | case1 byteval c hc hloop ih =>
    refine ih (lt_of_le_of_ne h ?_)
    rintro rfl
    rw [getElem?_replicate_append, Option.some.injEq] at hc
    exact hb (hc.trans hloop.1)
  | case2 byteval c hc hstop =>
    rcases h.lt_or_eq with hlt | rfl
    · rw [List.getElem?_append_left (by simpa using hlt), List.getElem?_replicate_of_lt hlt] at hc
      exact absurd ⟨(Option.some.inj hc).symm, by simp; omega⟩ hstop
    · rfl
  | case3 byteval hnone =>
    rw [List.getElem?_eq_none_iff] at hnone
    simp at hnone
    omega

theorem calcLevel_eq_none (h : ∀ b ∈ bytes, b = 0) : calcLevel bytes = none := by
  rw [calcLevel, skipZeros_of_forall_eq_zero h]
  rfl

/-- **The level is the number of leading zeros**, as an `int`. -/
theorem calcLevel_eq_bmod (h : ∃ b ∈ bytes, b ≠ 0) :
    calcLevel bytes = some (Int.bmod (leadingZeros bytes) (2 ^ 32)) := by
  obtain ⟨z, b, rest, hb, rfl⟩ := exists_eq_replicate_append h
  rw [calcLevel, skipZeros_of_le hb (Nat.zero_le z), leadingZeros_replicate_append,
    leadingZeros_cons_of_ne_zero hb]
  simp only [Option.bind_eq_bind, Option.bind_some, getElem?_replicate_append, skipBits_toInt32]
  have hsum : Int32.ofNat z * 8 + Int32.ofNat (leadingZeros [b]) =
      Int32.ofNat (8 * z + leadingZeros [b]) := by
    rw [mul_comm, Int32.ofNat_add, Int32.ofNat_mul]
    rfl
  rw [hsum]
  exact congrArg some Int32.toInt_ofNat'

/-- The level does not overflow if there is a byte that is not zero among the first `2 ^ 28`. -/
theorem leadingZeros_lt_iff (h : ∃ b ∈ bytes, b ≠ 0) :
    leadingZeros bytes < 2 ^ 31 ↔ ∃ b ∈ bytes.take (2 ^ 28), b ≠ 0 := by
  obtain ⟨z, b, rest, hb, rfl⟩ := exists_eq_replicate_append h
  have hlt := leadingZeros_singleton_lt hb
  rw [leadingZeros_replicate_append, leadingZeros_cons_of_ne_zero hb, List.take_append,
    List.length_replicate]
  constructor
  · intro hz
    refine ⟨b, List.mem_append_right _ ?_, hb⟩
    obtain ⟨n, hn⟩ : ∃ n, 2 ^ 28 - z = n + 1 := ⟨2 ^ 28 - z - 1, by omega⟩
    rw [hn, List.take_succ_cons]
    exact List.mem_cons_self
  · rintro ⟨c, hc, hne⟩
    by_contra hz
    have hnil : 2 ^ 28 - z = 0 := by omega
    rw [hnil, List.take_zero, List.append_nil] at hc
    exact hne (List.mem_replicate.mp (List.mem_of_mem_take hc)).2

/-- **When the level is the number of leading zeros.** -/
theorem calcLevel_eq_some_iff (bytes : List UInt8) :
    calcLevel bytes = some ↑(leadingZeros bytes) ↔ ∃ b ∈ bytes.take (2 ^ 28), b ≠ 0 := by
  by_cases h : ∃ b ∈ bytes, b ≠ 0
  · rw [calcLevel_eq_bmod h, Option.some.injEq, Int.bmod_eq_iff (by decide),
      ← leadingZeros_lt_iff h]
    constructor
    · rintro ⟨-, hlt, -⟩
      omega
    · intro hlt
      exact ⟨by omega, by omega, by simp⟩
  · have hzero : ∀ b ∈ bytes, b = 0 := by simpa using h
    rw [calcLevel_eq_none hzero]
    exact iff_of_false (by simp) fun ⟨b, hb, hne⟩ => hne (hzero b (List.mem_of_mem_take hb))

/-- **What a level means**: how far the hash, as a number, is below its bound. -/
theorem exists_calcLevel_digest (sha256 : HashFunction) {user key : String}
    (h : ∃ b ∈ digest sha256 user key, b ≠ 0) :
    ∃ level : ℕ, calcLevel (digest sha256 user key) = some ↑level ∧
      ∀ k ≤ 256, k ≤ level ↔ value (digest sha256 user key) < 2 ^ (256 - k) := by
  have hlength : (digest sha256 user key).length = 32 := sha256.length_hash _
  refine ⟨leadingZeros (digest sha256 user key), ?_, fun k hk => ?_⟩
  · rw [calcLevel_eq_some_iff, List.take_of_length_le (by omega)]
    exact h
  · rw [le_leadingZeros_iff (by omega), hlength]

end Levels

/-! ### Letters -/

theorem turn_letter : ∀ d < 64, turn (letter d) = letter (if d + 1 < 64 then d + 1 else 0) := by
  decide +kernel

theorem reverse64_letter : ∀ d < 64, (reverse64 (letter d)).toNat = d := by decide +kernel

theorem letter_injective {d e : ℕ} (hd : d < 64) (he : e < 64) (h : letter d = letter e) :
    d = e := by
  rw [← reverse64_letter d hd, ← reverse64_letter e he, h]

theorem mem_base64_iff : ∀ {c : Char}, c ∈ base64 ↔ ∃ d < 64, Char.ofNat (letter d).toNat = c := by
  have hall : (List.range 64).map (fun d => Char.ofNat (letter d).toNat) = base64 := by
    decide +kernel
  intro c
  rw [← hall, List.mem_map]
  simp

theorem utf8EncodeChar_letter :
    ∀ d < 64, String.utf8EncodeChar (Char.ofNat (letter d).toNat) = [letter d] := by
  decide +kernel

/-- Letters are not adjusted. -/
theorem adjust_letter {d : ℕ} (hd : d < 64) : adjust [letter d] = [letter d] := by
  rw [adjust, List.map_singleton, reverse64_letter d hd]

theorem text_injective : Function.Injective text := by
  refine List.map_injective_iff.mpr fun a b h => ?_
  have hall : ∀ n < 256, (Char.ofNat n).toNat = n := by decide +kernel
  have hchar : ∀ b : UInt8, (Char.ofNat b.toNat).toNat = b.toNat := by
    intro b
    exact hall b.toNat b.toNat_lt
  have hnat := congrArg Char.toNat h
  rw [hchar, hchar] at hnat
  exact UInt8.toNat_inj.mp hnat

/-! ### Keys as odometers -/

/-- A key that begins with `A` or `B`, and the digits behind, from the last one on. -/
@[ext]
structure Key where
  first : ℕ
  rest : List ℕ
  first_le : first ≤ 1
  rest_lt : ∀ d ∈ rest, d < 64

namespace Key

variable {n k : ℕ}

/-- The bytes of a key. -/
def bytes (s : Key) : List UInt8 := letter s.first :: (s.rest.map letter).reverse

/-- The key of `n + 1` letters `A`. -/
def start (n : ℕ) : Key where
  first := 0
  rest := List.replicate n 0
  first_le := Nat.zero_le 1
  rest_lt d hd := by
    rw [(List.mem_replicate.mp hd).2]
    decide

/-- The key behind a key: where the digits are used up, the first letter is turned too, and there is
a `B` in front of it. -/
def succ (s : Key) : Key :=
  if Full 64 s.rest then
    { first := 1
      rest := next 64 s.rest ++ [s.first + 1]
      first_le := le_rfl
      rest_lt := by
        have hfirst := s.first_le
        intro d hd
        rcases List.mem_append.mp hd with hd | hd
        · exact Odometer.next_lt s.rest_lt d hd
        · rw [List.mem_singleton.mp hd]
          omega }
  else
    { first := s.first
      rest := next 64 s.rest
      first_le := s.first_le
      rest_lt := Odometer.next_lt s.rest_lt }

end Key

/-! ### The loop -/

theorem loop_append_cons (front back : List UInt8) (b : UInt8) :
    loop (front ++ b :: back) (front.length + 1) =
      if turn b ≠ letter 0 then (front ++ turn b :: back, some front.length)
      else loop (front ++ letter 0 :: back) front.length := by
  rw [loop]
  simp only [List.getD_append_right _ _ _ _ le_rfl, Nat.sub_self, List.getD_cons_zero,
    List.set_append_right _ _ le_rfl, List.set_cons_zero]
  split
  next => rfl
  next h => rw [not_not.mp h]

theorem letter_ne_letter_zero {d : ℕ} (hd : d + 1 < 64) : letter (d + 1) ≠ letter 0 :=
  fun h => absurd (letter_injective hd (by decide) h) (Nat.succ_ne_zero d)

variable {c d : ℕ} {rest : List ℕ}

/-- The place of the last digit. -/
theorem loop_cons (hd : d < 64) (back : List UInt8) :
    loop (letter c :: ((d :: rest).map letter).reverse ++ back) ((d :: rest).length + 1) =
      if d + 1 < 64 then
        (letter c :: (((d + 1) :: rest).map letter).reverse ++ back, some (rest.length + 1))
      else loop (letter c :: (rest.map letter).reverse ++ letter 0 :: back) (rest.length + 1) := by
  have hsplit : letter c :: (letter d :: rest.map letter).reverse ++ back =
      (letter c :: (rest.map letter).reverse) ++ letter d :: back := by simp
  have hlength : (letter c :: (rest.map letter).reverse).length = rest.length + 1 := by simp
  have hstep := loop_append_cons (letter c :: (rest.map letter).reverse) back (letter d)
  rw [hlength, turn_letter d hd] at hstep
  rw [List.map_cons, hsplit, List.length_cons, hstep]
  by_cases h : d + 1 < 64
  · rw [if_pos h, if_pos h, if_pos (letter_ne_letter_zero h)]
    simp
  · rw [if_neg h, if_neg h, if_neg (not_not.mpr rfl)]

/-- Where all digits come back to `A`, the loop stops at the first letter. -/
theorem loop_of_full (hc : c ≤ 1) (h : Full 64 rest) (back : List UInt8) :
    loop (letter c :: (rest.map letter).reverse ++ back) (rest.length + 1) =
      (letter (c + 1) :: ((next 64 rest).map letter).reverse ++ back, some 0) := by
  induction rest generalizing back with
  | nil =>
    have hturn : turn (letter c) = letter (c + 1) := by
      rw [turn_letter c (by omega), if_pos (by omega)]
    have hstep := loop_append_cons [] back (letter c)
    rwa [hturn, if_pos (letter_ne_letter_zero (by omega))] at hstep
  | cons d rest ih =>
    obtain ⟨hd, h⟩ := List.forall_mem_cons.mp h
    rw [loop_cons (by omega) back, if_neg (by omega), ih h (letter 0 :: back), next,
      if_neg (by omega)]
    simp

/-- The loop turns the digits like an odometer, and stops before it comes to the first letter
otherwise. -/
theorem loop_of_not_full (hrest : ∀ d ∈ rest, d < 64) (h : ¬ Full 64 rest) (back : List UInt8) :
    ∃ i, loop (letter c :: (rest.map letter).reverse ++ back) (rest.length + 1) =
      (letter c :: ((next 64 rest).map letter).reverse ++ back, some (i + 1)) := by
  induction rest generalizing back with
  | nil => exact absurd (fun d hd => by cases hd) h
  | cons d rest ih =>
    obtain ⟨hd, hrest⟩ := List.forall_mem_cons.mp hrest
    rw [loop_cons hd back, next]
    split
    next => exact ⟨_, rfl⟩
    next hlast =>
      have hfull : ¬ Full 64 rest := fun hfull =>
        h (List.forall_mem_cons.mpr ⟨by omega, hfull⟩)
      obtain ⟨i, hi⟩ := ih hrest hfull (letter 0 :: back)
      exact ⟨i, by rw [hi]; simp⟩

/-! ### Runs -/

namespace Key

variable {n k : ℕ}

theorem succ_of_full {s : Key} (h : Full 64 s.rest) :
    s.succ.first = 1 ∧ s.succ.rest = next 64 s.rest ++ [s.first + 1] := by
  rw [succ, if_pos h]
  exact ⟨rfl, rfl⟩

theorem succ_of_not_full {s : Key} (h : ¬ Full 64 s.rest) :
    s.succ.first = s.first ∧ s.succ.rest = next 64 s.rest := by
  rw [succ, if_neg h]
  exact ⟨rfl, rfl⟩

/-- **Incrementing a key.** -/
theorem increment_bytes (s : Key) : increment s.bytes = s.succ.bytes := by
  have hlength : s.bytes.length = s.rest.length + 1 := by simp [bytes]
  rw [increment]
  rw [hlength]
  by_cases hfull : Full 64 s.rest
  · have hloop := loop_of_full s.first_le hfull []
    rw [List.append_nil, List.append_nil] at hloop
    obtain ⟨hfirst, hrest⟩ := succ_of_full hfull
    rw [bytes, hloop, bytes, hfirst, hrest]
    simp
  · obtain ⟨i, hloop⟩ := loop_of_not_full (c := s.first) s.rest_lt hfull []
    rw [List.append_nil, List.append_nil] at hloop
    obtain ⟨hfirst, hrest⟩ := succ_of_not_full hfull
    rw [bytes, hloop, bytes, hfirst, hrest]
    rfl

theorem bytes_start (n : ℕ) : (start n).bytes = List.replicate (n + 1) (letter 0) := by
  simp [start, bytes, List.replicate_succ]

theorem iterate_increment (n k : ℕ) :
    increment^[k] (List.replicate (n + 1) (letter 0)) = (succ^[k] (start n)).bytes := by
  rw [← bytes_start]
  exact (Function.Semiconj.iterate_right (f := bytes) (fun s => s.increment_bytes.symm) k
    (start n)).symm

theorem bytes_injective : Function.Injective bytes := by
  intro s t h
  obtain ⟨hfirst, hrest⟩ := List.cons.inj h
  have hdigits : ∀ s : Key, (s.rest.map letter).map (fun b => (reverse64 b).toNat) = s.rest := by
    intro s
    rw [List.map_map]
    exact (List.map_congr_left fun d hd => reverse64_letter d (s.rest_lt d hd)).trans
      (List.map_id' _)
  have hs := s.first_le
  have ht := t.first_le
  refine Key.ext (letter_injective (by omega) (by omega) hfirst) ?_
  rw [← hdigits s, ← hdigits t, List.reverse_injective hrest]

/-- Longer keys come later, and of two that are as long, the one with the larger number. -/
def rank (s : Key) : ℕ ×ₗ ℕ := toLex (s.rest.length, Nat.ofDigits 64 s.rest)

theorem rank_lt_rank_succ (s : Key) : s.rank < s.succ.rank := by
  unfold rank
  rw [Prod.Lex.toLex_lt_toLex]
  by_cases hfull : Full 64 s.rest
  · rw [(succ_of_full hfull).2]
    exact .inl (by simp)
  · rw [(succ_of_not_full hfull).2, Odometer.ofDigits_next s.rest_lt hfull]
    exact .inr ⟨by simp, Nat.lt_succ_self _⟩

/-- A key that has not grown begins with `A`. -/
theorem first_iterate_succ (n k : ℕ) : n ≤ (succ^[k] (start n)).rest.length ∧
    ((succ^[k] (start n)).rest.length = n → (succ^[k] (start n)).first = 0) := by
  induction k with
  | zero => exact ⟨by simp [start], fun _ => rfl⟩
  | succ k ih =>
    rw [Function.iterate_succ_apply']
    obtain ⟨hle, hfirst⟩ := ih
    by_cases hfull : Full 64 (succ^[k] (start n)).rest
    · rw [(succ_of_full hfull).1, (succ_of_full hfull).2, List.length_append, Odometer.length_next,
        List.length_singleton]
      exact ⟨by omega, fun h => by omega⟩
    · rw [(succ_of_not_full hfull).1, (succ_of_not_full hfull).2, Odometer.length_next]
      exact ⟨hle, hfirst⟩

/-- The first keys. -/
theorem iterate_succ_of_lt (hk : k < 64 ^ n) :
    (succ^[k] (start n)).first = 0 ∧
      (succ^[k] (start n)).rest = (next 64)^[k] (List.replicate n 0) := by
  induction k with
  | zero => exact ⟨rfl, rfl⟩
  | succ k ih =>
    obtain ⟨hfirst, hrest⟩ := ih (by omega)
    obtain ⟨hlength, hlt, hvalue⟩ :=
      Odometer.iterate_next_replicate (b := 64) (by decide) (show k < 64 ^ n by omega)
    have hfull : ¬ Full 64 (succ^[k] (start n)).rest := by
      intro hfull
      rw [hrest] at hfull
      have := Odometer.ofDigits_of_full hfull
      rw [hvalue, hlength] at this
      omega
    rw [Function.iterate_succ_apply', Function.iterate_succ_apply', ← hrest,
      (succ_of_not_full hfull).1, (succ_of_not_full hfull).2]
    exact ⟨hfirst, rfl⟩

end Key

/-- **Which keys are tried** before the keys get longer: all that begin with `A`, each after as many
others as its digits say. -/
theorem exists_keys_eq {s : List Char} (hs : ∀ c ∈ s, c ∈ base64) :
    ∃ k < 64 ^ s.length, keys (s.length + 1) k = 'A' :: s := by
  have hdigits : ∃ ds : List ℕ, (∀ d ∈ ds, d < 64) ∧ ds.length = s.length ∧
      text (ds.map letter).reverse = s := by
    induction s with
    | nil => exact ⟨[], by simp, rfl, rfl⟩
    | cons c s ih =>
      obtain ⟨hc, htail⟩ := List.forall_mem_cons.mp hs
      obtain ⟨d, hd, rfl⟩ := mem_base64_iff.mp hc
      obtain ⟨ds, hds, hlength, rfl⟩ := ih htail
      refine ⟨ds ++ [d], ?_, by simp [hlength], by simp [text]⟩
      rw [List.forall_mem_append]
      exact ⟨hds, by simpa using hd⟩
  obtain ⟨ds, hds, hlength, htext⟩ := hdigits
  have hlt : Nat.ofDigits 64 ds < 64 ^ s.length :=
    hlength ▸ Nat.ofDigits_lt_base_pow_length (by decide) hds
  obtain ⟨hfirst, hrest⟩ := Key.iterate_succ_of_lt hlt
  have hiterate := Odometer.iterate_next_ofDigits (b := 64) (by decide) hds
  rw [hlength] at hiterate
  refine ⟨Nat.ofDigits 64 ds, hlt, ?_⟩
  rw [keys, Key.iterate_increment, Key.bytes, hfirst, hrest, hiterate]
  exact congrArg ('A' :: ·) htext

/-- **No key is tried twice.** -/
theorem keys_injective (n : ℕ) : Function.Injective (keys (n + 1)) := by
  have hrank : StrictMono fun k => (Key.succ^[k] (Key.start n)).rank :=
    strictMono_nat_of_lt_succ fun k => by
      rw [Function.iterate_succ_apply']
      exact Key.rank_lt_rank_succ _
  intro j k h
  have hbytes := text_injective h
  rw [Key.iterate_increment, Key.iterate_increment] at hbytes
  exact hrank.injective (congrArg Key.rank (Key.bytes_injective hbytes))

/-- Keys that have not grown begin with `A`. -/
theorem head?_keys {n k : ℕ} (h : (keys (n + 1) k).length = n + 1) :
    (keys (n + 1) k).head? = some 'A' := by
  rw [keys, text, List.length_map, Key.iterate_increment] at h
  have hfirst := (Key.first_iterate_succ n k).2 (by simpa [Key.bytes] using h)
  rw [keys, text, Key.iterate_increment, Key.bytes, hfirst]
  rfl

/-- A search goes through all keys of `n` letters before it comes to longer ones, and never comes
back to a key. -/
structure Exhaustive (keys : ℕ → List Char) (n : ℕ) : Prop where
  produced : ∀ s : List Char, s.length = n → (∀ c ∈ s, c ∈ base64) →
    ∃ k, keys k = s ∧ ∀ j ≤ k, (keys j).length ≤ n
  once : Function.Injective keys

/-- **The search misses keys**: the first letter stays an `A` until the keys get longer. -/
theorem not_exhaustive_keys (n : ℕ) : ¬ Exhaustive (keys (n + 1)) (n + 1) := by
  intro h
  have hbase64 : ∀ c ∈ 'B' :: List.replicate n 'A', c ∈ base64 := by
    refine List.forall_mem_cons.mpr ⟨by decide, fun c hc => ?_⟩
    rw [(List.mem_replicate.mp hc).2]
    decide
  obtain ⟨k, hk, -⟩ := h.produced ('B' :: List.replicate n 'A') (by simp) hbase64
  have hhead := head?_keys (n := n) (k := k) (by rw [hk]; simp)
  rw [hk, List.head?_cons] at hhead
  revert hhead
  decide

end ShaTests

namespace ScanStringHash

/-- The same loop over the same tables. -/
def increment (keyBytes : List UInt8) : List UInt8 := ShaTests.increment keyBytes

/-- The values of `tail`, from `n` letters `A` on. -/
def keys (n k : ℕ) : List Char :=
  ShaTests.text (increment^[k] (List.replicate n (ShaTests.letter 0)))

end ScanStringHash

end Gwems
