import Mathlib

/-!
# SHA-256

The hash function as `SHA256_Chestnykh.js` computes it: the message is filled up to blocks of 64
bytes with a bit, zeros and its length, and each block is mixed into eight words.
-/

namespace Gwems

/-- A hash function with 32 bytes. -/
structure HashFunction where
  hash : List UInt8 → List UInt8
  length_hash : ∀ message, (hash message).length = 32

instance : CoeFun HashFunction fun _ => List UInt8 → List UInt8 := ⟨HashFunction.hash⟩

/-- Messages that are not the same can have any hashes, also if these are hashed again. -/
theorem HashFunction.exists_hash_hash_eq {m₁ m₂ h₁ h₂ : List UInt8} (hm : m₁ ≠ m₂)
    (hm₁ : 32 < m₁.length) (hm₂ : 32 < m₂.length) (hh : h₁ ≠ h₂) (hh₁ : h₁.length = 32)
    (hh₂ : h₂.length = 32) :
    ∃ H : HashFunction, H (H m₁) = h₁ ∧ H (H m₂) = h₂ := by
  have hne : ∀ {m h : List UInt8}, 32 < m.length → h.length = 32 → m ≠ h := by
    rintro m h hm hh rfl
    omega
  refine ⟨⟨fun m => if m = m₁ ∨ m = h₁ then h₁ else h₂, fun m => ?_⟩, ?_, ?_⟩
  · split
    next => exact hh₁
    next => exact hh₂
  · simp
  · simp [Ne.symm hm, Ne.symm hh, hne hm₂ hh₁, (hne hm₁ hh₂).symm]

namespace Sha256

/-- The array `K`. -/
def K : List UInt32 := [
  0x428a2f98, 0x71374491, 0xb5c0fbcf, 0xe9b5dba5, 0x3956c25b, 0x59f111f1, 0x923f82a4, 0xab1c5ed5,
  0xd807aa98, 0x12835b01, 0x243185be, 0x550c7dc3, 0x72be5d74, 0x80deb1fe, 0x9bdc06a7, 0xc19bf174,
  0xe49b69c1, 0xefbe4786, 0x0fc19dc6, 0x240ca1cc, 0x2de92c6f, 0x4a7484aa, 0x5cb0a9dc, 0x76f988da,
  0x983e5152, 0xa831c66d, 0xb00327c8, 0xbf597fc7, 0xc6e00bf3, 0xd5a79147, 0x06ca6351, 0x14292967,
  0x27b70a85, 0x2e1b2138, 0x4d2c6dfc, 0x53380d13, 0x650a7354, 0x766a0abb, 0x81c2c92e, 0x92722c85,
  0xa2bfe8a1, 0xa81a664b, 0xc24b8b70, 0xc76c51a3, 0xd192e819, 0xd6990624, 0xf40e3585, 0x106aa070,
  0x19a4c116, 0x1e376c08, 0x2748774c, 0x34b0bcb5, 0x391c0cb3, 0x4ed8aa4a, 0x5b9cca4f, 0x682e6ff3,
  0x748f82ee, 0x78a5636f, 0x84c87814, 0x8cc70208, 0x90befffa, 0xa4506ceb, 0xbef9a3f7, 0xc67178f2]

/-- The words `v`. -/
structure State where
  a : UInt32 := 0x6a09e667
  b : UInt32 := 0xbb67ae85
  c : UInt32 := 0x3c6ef372
  d : UInt32 := 0xa54ff53a
  e : UInt32 := 0x510e527f
  f : UInt32 := 0x9b05688c
  g : UInt32 := 0x1f83d9ab
  h : UInt32 := 0x5be0cd19

/-- `u>>>n | u<<(32-n)`. -/
def rotate (u : UInt32) (n : ℕ) : UInt32 :=
  u >>> UInt32.ofNat n ||| u <<< UInt32.ofNat (32 - n)

/-- Four bytes as a word. -/
def word (b₀ b₁ b₂ b₃ : UInt8) : UInt32 :=
  b₀.toUInt32 <<< 24 ||| b₁.toUInt32 <<< 16 ||| b₂.toUInt32 <<< 8 ||| b₃.toUInt32

/-- The words of a block, the last one first. -/
def load (w : List UInt32) : List UInt8 → List UInt32
  | b₀ :: b₁ :: b₂ :: b₃ :: p => load (word b₀ b₁ b₂ b₃ :: w) p
  | _ => w

/-- The words `w[i]` from the sixteenth on, each from the ones before it, the last one first. -/
def extend : ℕ → List UInt32 → List UInt32
  | 0, w => w
  | n + 1, w =>
    let u := w.getD 1 0
    let t1 := rotate u 17 ^^^ rotate u 19 ^^^ u >>> 10
    let u := w.getD 14 0
    let t2 := rotate u 7 ^^^ rotate u 18 ^^^ u >>> 3
    extend n ((t1 + w.getD 6 0 + (t2 + w.getD 15 0)) :: w)

/-- One of the 64 rounds. -/
def mix (s : State) (kw : UInt32 × UInt32) : State :=
  let t1 := (rotate s.e 6 ^^^ rotate s.e 11 ^^^ rotate s.e 25) + (s.e &&& s.f ^^^ ~~~s.e &&& s.g) +
    (s.h + (kw.1 + kw.2))
  let t2 := (rotate s.a 2 ^^^ rotate s.a 13 ^^^ rotate s.a 22) +
    (s.a &&& s.b ^^^ s.a &&& s.c ^^^ s.b &&& s.c)
  { a := t1 + t2, b := s.a, c := s.b, d := s.c, e := s.d + t1, f := s.e, g := s.f, h := s.g }

/-- A block is mixed into the words. -/
def block (v : State) (p : List UInt8) : State :=
  let s := (K.zip (extend 48 (load [] p)).reverse).foldl mix v
  { a := v.a + s.a, b := v.b + s.b, c := v.c + s.c, d := v.d + s.d, e := v.e + s.e, f := v.f + s.f,
    g := v.g + s.g, h := v.h + s.h }

/-- The first `n` blocks. -/
def blocks : ℕ → State → List UInt8 → State
  | 0, v, _ => v
  | n + 1, v, p => blocks n (block v (p.take 64)) (p.drop 64)

/-- The bytes of a number, from the highest of `n` bytes on. -/
def bigEndian (n m : ℕ) : List UInt8 :=
  (List.range n).reverse.map fun i => UInt8.ofNat (m >>> (8 * i))

/-- The message and what `finish` puts behind it. -/
def padded (message : List UInt8) : List UInt8 :=
  let padlen := if message.length % 64 < 56 then 64 else 128
  message ++ 0x80 :: List.replicate (padlen - 9 - message.length % 64) 0 ++
    bigEndian 8 (message.length * 8)

/-- The bytes of the words. -/
def State.bytes (v : State) : List UInt8 :=
  [v.a, v.b, v.c, v.d, v.e, v.f, v.g, v.h].flatMap fun w => bigEndian 4 w.toNat

end Sha256

/-- `sha256(message)`. -/
def sha256 : HashFunction where
  hash message :=
    let p := Sha256.padded message
    (Sha256.blocks (p.length / 64) {} p).bytes
  length_hash _ := rfl

end Gwems
