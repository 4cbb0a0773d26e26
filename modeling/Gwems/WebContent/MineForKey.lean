import Gwems.Experiments.ShaTests
import Gwems.Library.Text
import Gwems.Library.Utf16

/-!
# `MineForKey.html`: the search for a key in the browser

The page makes the same search as `ShaTests.java`, with a `getBytes` that is "supposed to be the
same as UTF8 getBytes in java". It has as many bytes of a character code as its logarithm says, and
shifts the code to the left where it should go to the right: the codes 0 and 1 have no byte, those
up to 256 their low byte, and the others their low byte and a zero. `getBytes_eq_utf8_iff` says for
which texts this is UTF-8, and `sameLevels_iff` that only for users with such names the levels are
those of the server. From the same bytes both make the same level, the number of leading zeros, with
exceptions on both sides (`calcLevel_eq_leadingZeros_iff`).

The keys come in the same order as on the server (`keys_eq`), so here as well keys are left out:
`not_exhaustive`.
-/

namespace Gwems

namespace MineForKey

open Bits
open ShaTests (base64 utf8 Exhaustive)

/-! ### Bytes -/

/-- `str.charCodeAt(i)`, for all `i`: the UTF-16 code units. -/
def charCodes (c : Char) : List ℕ := Utf16.charUnits c

/-- The bytes of a character code: `Math.ceil(Math.log(charCode) / Math.log(256))` of them, none for
the code zero with its infinite logarithm. -/
def codeBytes (charCode : ℕ) : List UInt8 :=
  (List.range (Nat.clog 256 charCode)).map fun j => UInt8.ofNat (charCode <<< (j * 8) &&& 0xFF)

/-- `String.prototype.getBytes`. -/
def getBytes (str : List Char) : List UInt8 := (str.flatMap charCodes).flatMap codeBytes

/-! ### Levels -/

/-- The hash of a key for a user. -/
def digest (sha256 : HashFunction) (user key : String) : List UInt8 :=
  sha256 (sha256 (getBytes (user ++ key).toList))

/-- `while (bytes[byteval] == 0 && byteval < bytes.length)`, from a place on. Behind the bytes there
is `undefined`, which does not equal zero. -/
def skipZeros (bytes : List UInt8) (byteval : ℕ) : ℕ :=
  if bytes[byteval]? = some 0 ∧ byteval < bytes.length then skipZeros bytes (byteval + 1)
  else byteval
termination_by bytes.length - byteval

/-- `calcLevel(bytes)`. As an operand of `&`, `undefined` is zero. -/
def calcLevel (bytes : List UInt8) : ℕ :=
  let byteval := skipZeros bytes 0
  let tmp := bytes[byteval]?.elim 0 fun b => Int32.ofNat b.toNat
  let bitval := ShaTests.skipBits tmp 0x80 0
  byteval * 8 + bitval

/-- Page and server agree on the levels of all keys of a user, whatever the hash function is. -/
def SameLevels (user : String) : Prop :=
  ∀ (sha256 : HashFunction) (key : String), (∀ c ∈ key.toList, c ∈ base64) →
    (∃ b ∈ ShaTests.digest sha256 user key, b ≠ 0) → (∃ b ∈ digest sha256 user key, b ≠ 0) →
    ShaTests.calcLevel (ShaTests.digest sha256 user key) =
      some ↑(calcLevel (digest sha256 user key))

/-! ### The search -/

/-- What `kiloTry` makes of a key. -/
def increment (key : List Char) : List Char :=
  let keyBytes := getBytes key
  match ShaTests.loop keyBytes keyBytes.length with
  | (keyBytes, some 0) => 'B' :: ShaTests.text keyBytes
  | (keyBytes, _) => ShaTests.text keyBytes

/-- The keys that are tried, from the key of `n` letters `A` on. -/
def keys (n k : ℕ) : List Char := increment^[k] (List.replicate n 'A')

/-! ### UTF-8 -/

/-- The bytes of a code: they are not more than two. -/
theorem codeBytes_eq {u : ℕ} (hu : u < 0x10000) : codeBytes u =
    if u ≤ 1 then [] else if u ≤ 256 then [UInt8.ofNat u] else [UInt8.ofNat u, 0] := by
  have hfirst : UInt8.ofNat (u &&& 0xFF) = UInt8.ofNat u := by
    have hmask : u &&& 0xFF = u % 2 ^ 8 := Nat.and_two_pow_sub_one_eq_mod u 8
    rw [hmask]
    exact UInt8.toNat_inj.mp (by simp)
  have hsecond : u <<< 8 &&& 0xFF = 0 := by
    have hmask : u <<< 8 &&& 0xFF = u <<< 8 % 2 ^ 8 := Nat.and_two_pow_sub_one_eq_mod _ 8
    rw [hmask, Nat.shiftLeft_eq]
    exact Nat.mul_mod_left _ _
  rw [codeBytes]
  split_ifs with hone hlow
  · rw [Nat.clog_of_right_le_one hone]
    rfl
  · rw [Nat.clog_eq_one (by omega) hlow]
    exact congrArg ([·]) hfirst
  · have htwo : Nat.clog 256 u = 2 := by
      refine le_antisymm (Nat.clog_le_of_le_pow (by omega)) ?_
      exact (Nat.lt_clog_iff_pow_lt (by decide)).mpr (by omega)
    have hpair : (List.range 2).map (fun j => UInt8.ofNat (u <<< (j * 8) &&& 0xFF)) =
        [UInt8.ofNat (u &&& 0xFF), UInt8.ofNat (u <<< 8 &&& 0xFF)] := rfl
    rw [htwo, hpair, hfirst, hsecond]
    rfl

/-- The bytes of a character. -/
def charBytes (c : Char) : List UInt8 := (charCodes c).flatMap codeBytes

theorem getBytes_eq (str : List Char) : getBytes str = str.flatMap charBytes :=
  List.flatMap_assoc

theorem charBytes_eq (c : Char) : charBytes c =
    if c.toNat ≤ 1 then [] else if c.toNat ≤ 256 then [UInt8.ofNat c.toNat]
    else if c.toNat ≤ 0xFFFF then [UInt8.ofNat c.toNat, 0]
    else [UInt8.ofNat (0xD800 + (c.toNat - 0x10000) / 0x400), 0,
      UInt8.ofNat (0xDC00 + (c.toNat - 0x10000) % 0x400), 0] := by
  have hlt : c.toNat < 0x110000 := by
    rcases c.valid with h | h
    · exact lt_trans h (by decide)
    · exact h.2
  rw [charBytes, charCodes, Utf16.charUnits]
  by_cases h : c.toNat < 0x10000
  · rw [if_pos h, List.flatMap_singleton, codeBytes_eq h]
    split_ifs with h1 h2 h3
    · rfl
    · rfl
    · rfl
    · omega
  · rw [if_neg h, List.flatMap_cons, List.flatMap_singleton, codeBytes_eq (by omega),
      codeBytes_eq (by omega)]
    rw [if_neg (by omega), if_neg (by omega), if_neg (by omega), if_neg (by omega),
      if_neg (by omega), if_neg (by omega), if_neg (by omega)]
    rfl

theorem utf8EncodeChar_eq (c : Char) : String.utf8EncodeChar c =
    if c.toNat ≤ 0x7F then [UInt8.ofNat c.toNat]
    else if c.toNat ≤ 0x7FF then
      [UInt8.ofNat (c.toNat / 64 % 32 + 192), UInt8.ofNat (c.toNat % 64 + 128)]
    else if c.toNat ≤ 0xFFFF then
      [UInt8.ofNat (c.toNat / 4096 % 16 + 224), UInt8.ofNat (c.toNat / 64 % 64 + 128),
        UInt8.ofNat (c.toNat % 64 + 128)]
    else
      [UInt8.ofNat (c.toNat / 262144 % 8 + 240), UInt8.ofNat (c.toNat / 4096 % 64 + 128),
        UInt8.ofNat (c.toNat / 64 % 64 + 128), UInt8.ofNat (c.toNat % 64 + 128)] := rfl

/-- UTF-8 does not have fewer bytes. -/
theorem length_charBytes_le (c : Char) :
    (charBytes c).length ≤ (String.utf8EncodeChar c).length := by
  rw [charBytes_eq, utf8EncodeChar_eq]
  split_ifs <;> simp <;> omega

/-- No byte of UTF-8 behind the first one is zero. -/
theorem charBytes_eq_iff {c : Char} :
    charBytes c = String.utf8EncodeChar c ↔ 2 ≤ c.toNat ∧ c.toNat ≤ 0x7F := by
  have hzero : ∀ n : ℕ, (0 : UInt8) ≠ UInt8.ofNat (n % 64 + 128) := by
    intro n h
    have hnat : 0 = (n % 64 + 128) % 2 ^ 8 := (congrArg UInt8.toNat h).trans UInt8.toNat_ofNat'
    omega
  rw [charBytes_eq, utf8EncodeChar_eq]
  split_ifs <;> simp only [List.cons.injEq, hzero, reduceCtorEq, and_false, false_iff, and_true,
    true_iff] <;> omega

/-- **For which texts `getBytes` is UTF-8.** -/
theorem getBytes_eq_utf8_iff {str : String} :
    getBytes str.toList = utf8 str ↔ ∀ c ∈ str.toList, 2 ≤ c.toNat ∧ c.toNat ≤ 0x7F := by
  rw [getBytes_eq, utf8, Text.flatMap_eq_flatMap_iff length_charBytes_le]
  exact forall₂_congr fun c _ => charBytes_eq_iff

/-! ### Keys -/

theorem charBytes_letter {d : ℕ} (hd : d < 64) :
    charBytes (Char.ofNat (ShaTests.letter d).toNat) = [ShaTests.letter d] := by
  have hrange : ∀ d < 64, 2 ≤ (Char.ofNat (ShaTests.letter d).toNat).toNat ∧
      (Char.ofNat (ShaTests.letter d).toNat).toNat ≤ 0x7F := by decide +kernel
  exact (charBytes_eq_iff.mpr (hrange d hd)).trans (ShaTests.utf8EncodeChar_letter d hd)

/-- The bytes of a key are the same on both sides. -/
theorem getBytes_key {key : String} (hkey : ∀ c ∈ key.toList, c ∈ base64) :
    getBytes key.toList = ShaTests.adjust (utf8 key) := by
  rw [getBytes_eq, utf8, ShaTests.adjust, List.map_flatMap]
  refine List.flatMap_congr fun c hc => ?_
  obtain ⟨d, hd, rfl⟩ := ShaTests.mem_base64_iff.mp (hkey c hc)
  rw [charBytes_letter hd, ShaTests.utf8EncodeChar_letter d hd]
  exact (ShaTests.adjust_letter hd).symm

theorem getBytes_append {user key : String} (hkey : ∀ c ∈ key.toList, c ∈ base64) :
    getBytes (user ++ key).toList = getBytes user.toList ++ ShaTests.adjust (utf8 key) := by
  rw [← getBytes_key hkey, String.toList_append, getBytes_eq, List.flatMap_append, ← getBytes_eq,
    ← getBytes_eq]

/-! ### Levels of the page and the server -/

theorem skipBits_ofNat (b : UInt8) :
    ShaTests.skipBits (Int32.ofNat b.toNat) 0x80 0 = leadingZeros [b] :=
  forall_byte (P := fun b => ShaTests.skipBits (Int32.ofNat b.toNat) 0x80 0 = leadingZeros [b])
    (by decide +kernel) b

/-- The loop stops at the first byte that is not zero, or behind the last byte. -/
theorem skipZeros_of_le {z byteval : ℕ} {rest : List UInt8} (hrest : rest[0]? ≠ some 0)
    (h : byteval ≤ z) : skipZeros (List.replicate z 0 ++ rest) byteval = z := by
  fun_induction skipZeros (List.replicate z 0 ++ rest) byteval with
  | case1 byteval hloop ih =>
    refine ih (lt_of_le_of_ne h ?_)
    rintro rfl
    rw [List.getElem?_append_right (by simp), List.length_replicate, Nat.sub_self] at hloop
    exact hrest hloop.1
  | case2 byteval hstop =>
    by_contra hne
    have hlt : byteval < z := lt_of_le_of_ne h hne
    refine hstop ⟨?_, by simp; omega⟩
    rw [List.getElem?_append_left (by simpa using hlt), List.getElem?_replicate_of_lt hlt]

/-- **The level of the page**: eight too many if all bytes are zero. -/
theorem calcLevel_eq (bytes : List UInt8) :
    calcLevel bytes = leadingZeros bytes + if ∃ b ∈ bytes, b ≠ 0 then 0 else 8 := by
  by_cases h : ∃ b ∈ bytes, b ≠ 0
  · rw [if_pos h]
    obtain ⟨z, b, rest, hb, rfl⟩ := exists_eq_replicate_append h
    rw [calcLevel, skipZeros_of_le (by simpa using hb) (Nat.zero_le z),
      ShaTests.getElem?_replicate_append, leadingZeros_replicate_append,
      leadingZeros_cons_of_ne_zero hb]
    simp only [Option.elim_some, skipBits_ofNat]
    omega
  · rw [if_neg h]
    obtain ⟨n, rfl⟩ : ∃ n, bytes = List.replicate n 0 ++ [] :=
      ⟨bytes.length, by simpa [List.eq_replicate_iff] using h⟩
    have hbits : ShaTests.skipBits 0 0x80 0 = 8 := by decide +kernel
    rw [calcLevel, skipZeros_of_le (by simp) (Nat.zero_le n), leadingZeros_replicate_append,
      List.getElem?_eq_none (by simp)]
    simp only [Option.elim_none, hbits]
    rw [mul_comm]
    rfl

/-- **Which levels are the number of leading zeros.** -/
theorem calcLevel_eq_leadingZeros_iff (bytes : List UInt8) :
    (ShaTests.calcLevel bytes = some ↑(leadingZeros bytes) ↔
        ∃ b ∈ bytes.take (2 ^ 28), b ≠ 0) ∧
      (calcLevel bytes = leadingZeros bytes ↔ ∃ b ∈ bytes, b ≠ 0) := by
  refine ⟨ShaTests.calcLevel_eq_some_iff bytes, ?_⟩
  rw [calcLevel_eq]
  split_ifs with h
  · exact iff_of_true (add_zero _) h
  · exact iff_of_false (by omega) h

/-- One zero byte: the server throws, and the page counts 16 zeros. Behind `2 ^ 28` zero bytes the
level of the server is negative. -/
theorem not_forall_calcLevel_eq :
    ¬(∀ bytes, ShaTests.calcLevel bytes = some ↑(leadingZeros bytes) ∧
        calcLevel bytes = leadingZeros bytes) ∧
      (ShaTests.calcLevel [0] = none ∧ calcLevel [0] = 16 ∧ leadingZeros [0] = 8) ∧
      ShaTests.calcLevel (List.replicate (2 ^ 28) 0 ++ [1]) = some (7 - 2 ^ 31) := by
  have hjava : ShaTests.calcLevel [0] = none := ShaTests.calcLevel_eq_none (by simp)
  have hzeros : leadingZeros [0] = 8 := by decide
  have hpage : calcLevel [0] = 16 := by
    rw [calcLevel_eq, hzeros]
    simp
  refine ⟨fun h => ?_, ⟨hjava, hpage, hzeros⟩, ?_⟩
  · have hone := (h [0]).1
    rw [hjava] at hone
    cases hone
  · have hone : leadingZeros [1] = 7 := by decide
    have hlevel : ∀ z, ShaTests.calcLevel (List.replicate z 0 ++ [1]) =
        some (Int.bmod ↑(8 * z + 7) (2 ^ 32)) := by
      intro z
      have hmem : (1 : UInt8) ∈ List.replicate z 0 ++ [1] :=
        List.mem_append_right _ (List.mem_singleton_self 1)
      rw [ShaTests.calcLevel_eq_bmod ⟨1, hmem, by decide⟩, leadingZeros_replicate_append, hone]
    exact (hlevel (2 ^ 28)).trans (by decide)

/-- **For which users the levels are the same.** -/
theorem sameLevels_iff (user : String) :
    SameLevels user ↔ ∀ c ∈ user.toList, 2 ≤ c.toNat ∧ c.toNat ≤ 0x7F := by
  rw [← getBytes_eq_utf8_iff]
  constructor
  · intro h
    -- a key that is longer than a hash
    by_contra hne
    set key := String.ofList (List.replicate 33 'A') with hkeydef
    have hkey : ∀ c ∈ key.toList, c ∈ base64 := by
      intro c hc
      rw [hkeydef, String.toList_ofList] at hc
      rw [(List.mem_replicate.mp hc).2]
      decide
    have hlength : (ShaTests.adjust (utf8 key)).length = 33 := by
      rw [hkeydef]
      decide +kernel
    have hmessages : getBytes (user ++ key).toList ≠ utf8 user ++ ShaTests.adjust (utf8 key) := by
      rw [getBytes_append hkey]
      exact fun heq => hne (List.append_cancel_right heq)
    have hhashes : List.replicate 32 (0xFF : UInt8) ≠ List.replicate 32 0x01 := by decide
    obtain ⟨sha256, hpage, hserver⟩ := HashFunction.exists_hash_hash_eq hmessages
      (by rw [getBytes_append hkey, List.length_append, hlength]; omega)
      (by rw [List.length_append, hlength]; omega) hhashes (by decide) (by decide)
    have hlevels := h sha256 key hkey (by rw [ShaTests.digest, hserver]; decide +kernel)
      (by rw [digest, hpage]; decide +kernel)
    rw [digest, ShaTests.digest, hpage, hserver] at hlevels
    revert hlevels
    decide +kernel
  · intro h sha256 key hkey hjava _
    have hdigest : digest sha256 user key = ShaTests.digest sha256 user key := by
      rw [digest, ShaTests.digest, getBytes_append hkey, h]
    rw [hdigest, calcLevel_eq, if_pos hjava, add_zero, ShaTests.calcLevel_eq_some_iff,
      List.take_of_length_le]
    · exact hjava
    · rw [ShaTests.digest, sha256.length_hash]
      decide

/-- The last letter of "José" has one byte on the page and two on the server: level 0 instead of
3. -/
theorem levels_differ : ¬ ∀ user key : String, (∀ c ∈ key.toList, c ∈ base64) →
    (∃ b ∈ ShaTests.digest sha256 user key, b ≠ 0) → (∃ b ∈ digest sha256 user key, b ≠ 0) →
    ShaTests.calcLevel (ShaTests.digest sha256 user key) =
      some ↑(calcLevel (digest sha256 user key)) := by
  intro h
  have hbytes : getBytes ("José" ++ "AAAA").toList = [74, 111, 115, 0xE9, 65, 65, 65, 65] := by
    decide +kernel
  have hpage : calcLevel (digest sha256 "José" "AAAA") = 0 := by
    rw [digest, hbytes]
    decide +kernel
  have hserver : ShaTests.calcLevel (ShaTests.digest sha256 "José" "AAAA") = some 3 := by
    decide +kernel
  have hsome : (ShaTests.digest sha256 "José" "AAAA").any (· ≠ 0) = true ∧
      (digest sha256 "José" "AAAA").any (· ≠ 0) = true := by
    rw [digest, hbytes]
    decide +kernel
  simp only [List.any_eq_true, decide_eq_true_eq] at hsome
  have hkey : ∀ c ∈ "AAAA".toList, c ∈ base64 := by
    have hletter : 'A' ∈ base64 := by decide
    simpa using hletter
  have hlevels := h "José" "AAAA" hkey hsome.1 hsome.2
  rw [hpage, hserver] at hlevels
  revert hlevels
  decide

/-! ### Keys of the page and the server -/

/-- Letters are read back. -/
theorem getBytes_text {keyBytes : List UInt8}
    (h : ∀ b ∈ keyBytes, ∃ d < 64, ShaTests.letter d = b) :
    getBytes (ShaTests.text keyBytes) = keyBytes := by
  have hbyte : ∀ b ∈ keyBytes, charBytes (Char.ofNat b.toNat) = [b] := by
    intro b hb
    obtain ⟨d, hd, rfl⟩ := h b hb
    exact charBytes_letter hd
  rw [getBytes_eq, ShaTests.text, List.flatMap_map, List.flatMap_congr hbyte]
  exact List.flatMap_singleton' _

theorem increment_text (s : ShaTests.Key) :
    increment (ShaTests.text s.bytes) = ShaTests.text (ShaTests.increment s.bytes) := by
  have hbytes : getBytes (ShaTests.text s.bytes) = s.bytes := by
    refine getBytes_text (List.forall_mem_cons.mpr ⟨⟨s.first, ?_, rfl⟩, fun b hb => ?_⟩)
    · have := s.first_le
      omega
    · obtain ⟨d, hd, rfl⟩ := List.mem_map.mp (List.mem_reverse.mp hb)
      exact ⟨d, s.rest_lt d hd, rfl⟩
  have hletter : Char.ofNat (ShaTests.letter 1).toNat = 'B' := by decide +kernel
  rw [increment, ShaTests.increment]
  simp only [hbytes]
  generalize ShaTests.loop s.bytes s.bytes.length = r
  obtain ⟨keyBytes, i⟩ := r
  rcases i with _ | _ | i
  · simp only
  · simp only [ShaTests.text, List.map_cons, hletter]
  · simp only

/-- **The page tries the same keys.** -/
theorem keys_eq (n : ℕ) : keys (n + 1) = ShaTests.keys (n + 1) := by
  have hstart : List.replicate (n + 1) 'A' = ShaTests.text (ShaTests.Key.start n).bytes := by
    have hletter : Char.ofNat (ShaTests.letter 0).toNat = 'A' := by decide +kernel
    rw [ShaTests.Key.bytes_start, ShaTests.text, List.map_replicate, hletter]
  have hiterate : ∀ k, keys (n + 1) k =
      ShaTests.text (ShaTests.Key.succ^[k] (ShaTests.Key.start n)).bytes := by
    intro k
    induction k with
    | zero => exact hstart
    | succ k ih =>
      rw [Function.iterate_succ_apply', ← ShaTests.Key.increment_bytes, ← increment_text, ← ih]
      exact Function.iterate_succ_apply' _ _ _
  funext k
  rw [hiterate, ShaTests.keys, ShaTests.Key.iterate_increment]

/-- **No search goes through all keys** of any length. -/
theorem not_exhaustive (n : ℕ) : ¬ Exhaustive (ShaTests.keys (n + 1)) (n + 1) ∧
    ¬ Exhaustive (ScanStringHash.keys (n + 1)) (n + 1) ∧ ¬ Exhaustive (keys (n + 1)) (n + 1) := by
  refine ⟨ShaTests.not_exhaustive_keys n, ShaTests.not_exhaustive_keys n, ?_⟩
  rw [keys_eq]
  exact ShaTests.not_exhaustive_keys n

/-- The second key is `BB`. -/
theorem not_forall_exhaustive : ¬ ∀ n, 1 ≤ n → Exhaustive (ShaTests.keys n) n := by
  intro h
  obtain ⟨k, hk, hlength⟩ := (h 1 le_rfl).produced ['B'] rfl (by
    have hletter : 'B' ∈ base64 := by decide
    simpa using hletter)
  cases k with
  | zero =>
    have hfirst : ShaTests.keys 1 0 = ['A'] := by decide +kernel
    rw [hfirst] at hk
    revert hk
    decide
  | succ k =>
    have hsecond : (ShaTests.keys 1 1).length = 2 := by decide +kernel
    have hle := hlength 1 (by omega)
    omega

end MineForKey

end Gwems
