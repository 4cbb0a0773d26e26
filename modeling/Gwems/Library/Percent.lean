import Gwems.Library.Numeral

/-!
# Percent-encoded texts

A text in which `%` and two hexadecimal digits stand for a byte and `+` for a space. The bytes of a
run are read as UTF-8, and what is malformed there turns into a replacement character, one for each
group of bytes that could have begun a character. A percent sign without two digits behind it makes
the whole text wrong, but a sign is taken for a digit: `%+f` is a byte.

Every text has a percent-encoded form: `decode_encode`.
-/

namespace Gwems

namespace Percent

/-- The character that stands for malformed bytes. -/
def replacement : Char := '\uFFFD'

/-- How many bytes follow the first one of a character. -/
def trailing (b : UInt8) : ℕ :=
  if 0xC2 ≤ b ∧ b < 0xE0 then 1
  else if 0xE0 ≤ b ∧ b < 0xF0 then 2
  else if 0xF0 ≤ b ∧ b < 0xF5 then 3
  else 0

/-- A byte that does not begin a character. -/
def IsContinuation (b : UInt8) : Prop := 0x80 ≤ b ∧ b < 0xC0

instance (b : UInt8) : Decidable (IsContinuation b) := inferInstanceAs (Decidable (_ ∧ _))

/-- A byte that can follow a first one. Some first bytes have fewer of them, so that no character
has two forms and none is too large. -/
def IsSecond (b b₂ : UInt8) : Prop :=
  IsContinuation b₂ ∧ (b = 0xE0 → 0xA0 ≤ b₂) ∧ (b = 0xF0 → 0x90 ≤ b₂) ∧ (b = 0xF4 → b₂ < 0x90)

instance (b b₂ : UInt8) : Decidable (IsSecond b b₂) := inferInstanceAs (Decidable (_ ∧ _ ∧ _ ∧ _))

/-- How many bytes one replacement stands for: those that could have begun a character. -/
def malformedLength (b : UInt8) (rest : List UInt8) : ℕ :=
  if ∃ b₂ ∈ rest.head?, IsSecond b b₂ then
    1 + ((rest.take (trailing b)).takeWhile (IsContinuation ·)).length
  else 1

/-- The first character, and the bytes behind it. -/
def decodeFirst (b : UInt8) (rest : List UInt8) : Char × List UInt8 :=
  match (b :: rest).toByteArray.utf8DecodeChar? 0 with
  | some c => (c, (b :: rest).drop c.utf8Size)
  | none => (replacement, (b :: rest).drop (malformedLength b rest))

/-- At most `n` characters. -/
def decodeChars : ℕ → List UInt8 → List Char
  | 0, _ => []
  | _ + 1, [] => []
  | n + 1, b :: rest => (decodeFirst b rest).1 :: decodeChars n (decodeFirst b rest).2

/-- The text that bytes stand for in UTF-8, with replacements where they are malformed. -/
def decodeBytes (bytes : List UInt8) : List Char := decodeChars bytes.length bytes

/-- Why a text is not percent-encoded. -/
inductive Error
  /-- These are not two hexadecimal digits. -/
  | hex (s : String)
  /-- They are, with a minus sign. -/
  | negative
  /-- The text ends before the second one. -/
  | incomplete
  deriving DecidableEq, Repr

/-- The byte of two hexadecimal digits. -/
def byte (a b : Char) : Except Error UInt8 :=
  match Numeral.int? 16 [a, b] with
  | some v => if v < 0 then .error .negative else .ok (UInt8.ofNat v.toNat)
  | none => .error (.hex (String.ofList [a, b]))

/-- Bytes are collected until the next character that is not one of them. -/
def decodeList (bytes : List UInt8) : List Char → Except Error (List Char)
  | [] => .ok (decodeBytes bytes)
  | '%' :: a :: b :: rest => do
    let v ← byte a b
    decodeList (bytes ++ [v]) rest
  | '%' :: _ => .error .incomplete
  | c :: rest => do
    let l ← decodeList [] rest
    return decodeBytes bytes ++ (if c = '+' then ' ' else c) :: l

/-- The text that a percent-encoded text stands for. -/
def decode (s : String) : Except Error String := (decodeList [] s.toList).map String.ofList

/-- Every byte of a text in UTF-8, percent-encoded. -/
def encode (s : String) : String :=
  String.ofList ((s.toList.flatMap String.utf8EncodeChar).flatMap fun b =>
    ['%', Nat.digitChar (b.toNat / 16), Nat.digitChar (b.toNat % 16)])


/-! ### Every byte is read -/

theorem length_decodeFirst_le (b : UInt8) (rest : List UInt8) :
    (decodeFirst b rest).2.length ≤ rest.length := by
  have hdrop : ∀ n, 0 < n → ((b :: rest).drop n).length ≤ rest.length := by
    intro n hn
    rw [List.length_drop, List.length_cons]
    omega
  have hlength : 0 < malformedLength b rest := by
    rw [malformedLength]
    split
    · omega
    · omega
  rw [decodeFirst]
  split
  next c hc => exact hdrop _ c.utf8Size_pos
  next => exact hdrop _ hlength

/-- More steps than bytes are of no use. -/
theorem decodeChars_eq (n : ℕ) (bytes : List UInt8) (h : bytes.length ≤ n) :
    decodeChars n bytes = decodeBytes bytes := by
  induction n using Nat.strong_induction_on generalizing bytes with
  | _ n ih =>
    cases bytes with
    | nil => cases n <;> rfl
    | cons b rest =>
      obtain ⟨n, rfl⟩ : ∃ k, n = k + 1 := ⟨n - 1, by rw [List.length_cons] at h; omega⟩
      rw [List.length_cons] at h
      have hle := length_decodeFirst_le b rest
      rw [decodeBytes, List.length_cons, decodeChars, decodeChars, ih n (by omega) _ (by omega)]
      rcases Nat.lt_or_ge rest.length (n + 1) with hlt | hge
      · rw [ih rest.length hlt _ hle]
      · omega

theorem decodeBytes_cons (b : UInt8) (rest : List UInt8) :
    decodeBytes (b :: rest) = (decodeFirst b rest).1 :: decodeBytes (decodeFirst b rest).2 := by
  rw [← decodeChars_eq rest.length _ (length_decodeFirst_le b rest)]
  rfl

/-! ### Reading what was written -/

theorem decodeBytes_utf8EncodeChar_append (c : Char) (bytes : List UInt8) :
    decodeBytes (String.utf8EncodeChar c ++ bytes) = c :: decodeBytes bytes := by
  obtain ⟨b, rest, hchar⟩ := List.exists_cons_of_ne_nil (String.utf8EncodeChar_ne_nil (c := c))
  have hfirst : decodeFirst b (rest ++ bytes) = (c, bytes) := by
    have hdecode : (b :: (rest ++ bytes)).toByteArray.utf8DecodeChar? 0 = some c := by
      rw [← List.cons_append, ← hchar, List.toByteArray_append]
      exact ByteArray.utf8DecodeChar?_utf8EncodeChar_append
    rw [decodeFirst]
    rw [hdecode]
    simp only
    rw [← List.cons_append, ← hchar, ← String.length_utf8EncodeChar, List.drop_left]
  rw [hchar, List.cons_append, decodeBytes_cons, hfirst]

theorem decodeBytes_flatMap_utf8EncodeChar (l : List Char) :
    decodeBytes (l.flatMap String.utf8EncodeChar) = l := by
  induction l with
  | nil => rfl
  | cons c l ih => rw [List.flatMap_cons, decodeBytes_utf8EncodeChar_append, ih]

theorem byte_digitChar (b : UInt8) :
    byte (Nat.digitChar (b.toNat / 16)) (Nat.digitChar (b.toNat % 16)) = .ok b := by
  have hall : ∀ n < 256, byte (Nat.digitChar (n / 16)) (Nat.digitChar (n % 16)) =
      .ok (UInt8.ofNat n) := by decide +kernel
  rw [hall b.toNat b.toNat_lt, UInt8.ofNat_toNat]

/-- **Every text is the meaning of a percent-encoded one.** -/
theorem decode_encode (s : String) : decode (encode s) = .ok s := by
  have hlist : ∀ bytes bytes' : List UInt8,
      decodeList bytes (bytes'.flatMap fun b =>
        ['%', Nat.digitChar (b.toNat / 16), Nat.digitChar (b.toNat % 16)]) =
      .ok (decodeBytes (bytes ++ bytes')) := by
    intro bytes bytes'
    induction bytes' generalizing bytes with
    | nil => simp [decodeList]
    | cons b bytes' ih =>
      rw [List.flatMap_cons, List.cons_append, List.cons_append, List.cons_append, List.nil_append,
        decodeList, byte_digitChar]
      exact (ih (bytes ++ [b])).trans (by rw [List.append_assoc, List.singleton_append])
  rw [decode, encode, String.toList_ofList, hlist, List.nil_append,
    decodeBytes_flatMap_utf8EncodeChar]
  exact congrArg Except.ok String.ofList_toList

/-! ### Joined texts -/

/-- A character that stands for itself. -/
def IsPlain (c : Char) : Prop := c ≠ '%' ∧ c ≠ '+'

instance (c : Char) : Decidable (IsPlain c) := inferInstanceAs (Decidable (_ ∧ _))

theorem decodeList_cons {c : Char} (hc : c ≠ '%') (bytes : List UInt8) (l : List Char) :
    decodeList bytes (c :: l) = (do
      let l ← decodeList [] l
      return decodeBytes bytes ++ (if c = '+' then ' ' else c) :: l) := by
  rw [decodeList]
  · exact fun _ _ _ heq _ => hc heq
  · exact hc

theorem decodeList_of_plain {l : List Char} (h : ∀ c ∈ l, IsPlain c) (bytes : List UInt8) :
    decodeList bytes l = .ok (decodeBytes bytes ++ l) := by
  induction l generalizing bytes with
  | nil => rw [decodeList, List.append_nil]
  | cons c l ih =>
    obtain ⟨hc, hl⟩ := List.forall_mem_cons.mp h
    rw [decodeList_cons hc.1, ih hl, if_neg hc.2]
    rfl

/-- What stands behind a decoded text and stands for itself is decoded to itself. -/
theorem decodeList_append {l m : List Char} (hm : ∀ c ∈ m, IsPlain c) {bytes : List UInt8}
    {p : List Char} (h : decodeList bytes l = .ok p) :
    decodeList bytes (l ++ m) = .ok (p ++ m) := by
  induction bytes, l using decodeList.induct generalizing p with
  | case1 bytes =>
    rw [decodeList] at h
    obtain rfl := Except.ok.inj h
    exact decodeList_of_plain hm bytes
  | case2 bytes a b rest ih =>
    rw [List.cons_append, List.cons_append, List.cons_append, decodeList]
    rw [decodeList] at h
    cases hbyte : byte a b with
    | error e => rw [hbyte] at h; cases h
    | ok v =>
      rw [hbyte] at h
      exact ih v h
  | case3 bytes rest hrest =>
    rw [decodeList] at h
    · cases h
    · exact hrest
  | case4 bytes c rest _ hc ih =>
    rw [decodeList_cons hc] at h
    rw [List.cons_append, decodeList_cons hc]
    cases hrest : decodeList [] rest with
    | error e => rw [hrest] at h; cases h
    | ok q =>
      rw [hrest] at h
      rw [ih hrest]
      obtain rfl := Except.ok.inj h
      simp [bind, Except.bind, pure, Except.pure]

theorem decode_append {s path t : String} (ht : ∀ c ∈ t.toList, IsPlain c)
    (h : decode s = .ok path) : decode (s ++ t) = .ok (path ++ t) := by
  rw [decode] at h ⊢
  cases hlist : decodeList [] s.toList with
  | error e => rw [hlist] at h; cases h
  | ok l =>
    rw [hlist] at h
    obtain rfl := Except.ok.inj h
    rw [String.toList_append, decodeList_append ht hlist]
    refine congrArg Except.ok (String.toList_inj.mp ?_)
    simp

/-- No numeral has a character that is neither a digit nor a sign. -/
theorem byte_ne_ok {a b : Char} (hb : Numeral.value? b = none) (hsign : b ≠ '-' ∧ b ≠ '+')
    (v : UInt8) : byte a b ≠ .ok v := by
  intro h
  rw [byte] at h
  split at h
  next w hw =>
    rcases (Numeral.of_int?_eq_some hw).2 b (by simp) with hminus | hplus | hdigit
    · exact hsign.1 hminus
    · exact hsign.2 hplus
    · rw [Numeral.digit?, hb] at hdigit
      cases hdigit
  next => cases h

/-- A text that ends with a character that stands for itself, and cannot be in a numeral. -/
theorem decodeList_concat {c : Char} (hc : IsPlain c) (hvalue : Numeral.value? c = none)
    (hminus : c ≠ '-') {bytes : List UInt8} {l p : List Char}
    (h : decodeList bytes (l ++ [c]) = .ok p) :
    ∃ q, decodeList bytes l = .ok q ∧ p = q ++ [c] := by
  induction bytes, l using decodeList.induct generalizing p with
  | case1 bytes =>
    rw [List.nil_append, decodeList_of_plain (by simpa using hc)] at h
    exact ⟨_, by rw [decodeList], (Except.ok.inj h).symm⟩
  | case2 bytes a b rest ih =>
    rw [List.cons_append, List.cons_append, List.cons_append, decodeList] at h
    rw [decodeList]
    cases hbyte : byte a b with
    | error e => rw [hbyte] at h; cases h
    | ok v =>
      rw [hbyte] at h
      exact ih v h
  | case3 bytes rest hrest =>
    exfalso
    match rest with
    | [] => cases h
    | [a] =>
      rw [List.cons_append, List.cons_append, List.nil_append, decodeList] at h
      cases hbyte : byte a c with
      | error e => rw [hbyte] at h; cases h
      | ok v => exact byte_ne_ok hvalue ⟨hminus, hc.2⟩ v hbyte
    | a :: b :: rest => exact hrest a b rest rfl
  | case4 bytes d rest _ hd ih =>
    rw [List.cons_append, decodeList_cons hd] at h
    rw [decodeList_cons hd]
    cases hrest : decodeList [] (rest ++ [c]) with
    | error e => rw [hrest] at h; cases h
    | ok r =>
      rw [hrest] at h
      obtain ⟨q, hq, rfl⟩ := ih hrest
      rw [hq]
      obtain rfl := Except.ok.inj h
      exact ⟨_, rfl, by simp⟩

end Percent
end Gwems
