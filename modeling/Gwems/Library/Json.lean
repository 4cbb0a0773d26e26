import Gwems.Library.Text

/-!
# JSON trees and their text

JSON trees over any type of numbers, and for integers a printer without white space and a parser
that reads back what it prints (`parse_print`). Control characters, quotes and backslashes in
strings are escaped; the parser also knows the escapes that the printer does not use.

The parser works on lists of characters with a bound on its depth, which the length of a text is
large enough for.
-/

namespace Gwems

/-- A JSON tree. The entries of an object are in the order in which they are printed. -/
inductive Json (ν : Type*)
  | null
  | bool (b : Bool)
  | num (n : ν)
  | str (s : String)
  | arr (items : List (Json ν))
  | obj (entries : List (String × Json ν))

namespace Json

variable {ν : Type*}

/-- Induction on trees: an array has the property if its items have it, and an object if its values
have it. -/
theorem induct {P : Json ν → Prop} (null : P .null) (bool : ∀ b, P (.bool b))
    (num : ∀ n, P (.num n)) (str : ∀ s, P (.str s))
    (arr : ∀ items, (∀ j ∈ items, P j) → P (.arr items))
    (obj : ∀ entries, (∀ e ∈ entries, P e.2) → P (.obj entries)) (j : Json ν) : P j := by
  refine @Json.rec ν P (fun l => ∀ j ∈ l, P j) (fun l => ∀ e ∈ l, P e.2) (fun e => P e.2) null bool
    num str arr obj ?_ ?_ ?_ ?_ ?_ j
  · simp
  · exact fun j l hj hl => List.forall_mem_cons.mpr ⟨hj, hl⟩
  · simp
  · exact fun e l he hl => List.forall_mem_cons.mpr ⟨he, hl⟩
  · exact fun _ _ h => h

mutual

/-- How deep arrays and objects are nested. -/
def depth : Json ν → ℕ
  | .null | .bool _ | .num _ | .str _ => 0
  | .arr items => depthItems items + 1
  | .obj entries => depthEntries entries + 1

/-- The depth of the items of an array. -/
def depthItems : List (Json ν) → ℕ
  | [] => 0
  | j :: items => max (depth j) (depthItems items)

/-- The depth of the values of an object. -/
def depthEntries : List (String × Json ν) → ℕ
  | [] => 0
  | (_, j) :: entries => max (depth j) (depthEntries entries)

end

theorem depth_le_depthEntries {entries : List (String × Json ν)} {e : String × Json ν}
    (he : e ∈ entries) : e.2.depth ≤ depthEntries entries := by
  induction entries with
  | nil => cases he
  | cons d entries ih =>
    rcases List.mem_cons.mp he with rfl | he
    · exact le_max_left _ _
    · exact (ih he).trans (le_max_right _ _)

mutual

/-- No object of the tree has a key twice. -/
def Distinct : Json ν → Prop
  | .null | .bool _ | .num _ | .str _ => True
  | .arr items => DistinctItems items
  | .obj entries => (entries.map Prod.fst).Nodup ∧ DistinctEntries entries

/-- All items of an array are distinct. -/
def DistinctItems : List (Json ν) → Prop
  | [] => True
  | j :: items => Distinct j ∧ DistinctItems items

/-- All values of an object are distinct. -/
def DistinctEntries : List (String × Json ν) → Prop
  | [] => True
  | (_, j) :: entries => Distinct j ∧ DistinctEntries entries

end

theorem distinctItems_iff {items : List (Json ν)} :
    DistinctItems items ↔ ∀ j ∈ items, j.Distinct := by
  induction items with
  | nil => simp [DistinctItems]
  | cons j items ih => rw [DistinctItems, ih, List.forall_mem_cons]

theorem distinctEntries_iff {entries : List (String × Json ν)} :
    DistinctEntries entries ↔ ∀ e ∈ entries, e.2.Distinct := by
  induction entries with
  | nil => simp [DistinctEntries]
  | cons e entries ih =>
    obtain ⟨key, j⟩ := e
    rw [DistinctEntries, ih, List.forall_mem_cons]

theorem distinct_obj {entries : List (String × Json ν)} :
    (Json.obj entries).Distinct ↔
      (entries.map Prod.fst).Nodup ∧ ∀ e ∈ entries, e.2.Distinct := by
  rw [Distinct, distinctEntries_iff]

theorem mem_of_lookup_eq_some {α : Type*} {l : List (String × α)} {key : String} {a : α}
    (h : l.lookup key = some a) : (key, a) ∈ l := by
  obtain ⟨l₁, l₂, rfl, -⟩ := List.lookup_eq_some_iff.mp h
  exact List.mem_append_right _ List.mem_cons_self

/-- A key that is there once is found. -/
theorem lookup_eq_some_of_mem {α : Type*} {l : List (String × α)} {key : String} {a : α}
    (hl : (l.map Prod.fst).Nodup) (h : (key, a) ∈ l) : l.lookup key = some a := by
  induction l with
  | nil => cases h
  | cons e l ih =>
    obtain ⟨hnotin, hl⟩ := List.nodup_cons.mp hl
    rcases List.mem_cons.mp h with rfl | h
    · exact List.lookup_cons_self
    · have hne : (key == e.1) = false := by
        rw [beq_eq_false_iff_ne]
        rintro rfl
        exact hnotin (List.mem_map.mpr ⟨_, h, rfl⟩)
      rw [List.lookup_cons, hne]
      exact ih hl h

/-! ### Strings -/

/-- The escapes of one letter, each with the character it stands for. -/
def letters : List (Char × Char) :=
  [('"', '"'), ('\\', '\\'), ('b', Char.ofNat 8), ('t', '\t'), ('n', '\n'), ('f', Char.ofNat 12),
    ('r', '\r')]

/-- A hexadecimal digit. -/
def hexDigit (n : ℕ) : Char := if n < 10 then Char.ofNat (48 + n) else Char.ofNat (55 + n)

/-- The value of a hexadecimal digit. -/
def hexValue (c : Char) : Option ℕ :=
  if '0' ≤ c ∧ c ≤ '9' then some (c.toNat - 48)
  else if 'A' ≤ c ∧ c ≤ 'F' then some (c.toNat - 55)
  else if 'a' ≤ c ∧ c ≤ 'f' then some (c.toNat - 87)
  else none

/-- A character in a string. -/
def escape (c : Char) : List Char :=
  match letters.find? fun e => e.2 = c with
  | some e => ['\\', e.1]
  | none =>
    if c.toNat < 32 then ['\\', 'u', '0', '0', hexDigit (c.toNat / 16), hexDigit (c.toNat % 16)]
    else [c]

/-- Read one character of a string. -/
def readChar : List Char → Option (Char × List Char)
  | [] => none
  | '\\' :: 'u' :: a :: b :: c :: d :: rest => do
    let n := [← hexValue a, ← hexValue b, ← hexValue c, ← hexValue d]
    some (Char.ofNat (n.foldl (fun m d => 16 * m + d) 0), rest)
  | '\\' :: '/' :: rest => some ('/', rest)
  | '\\' :: e :: rest => (letters.find? fun l => l.1 = e).map fun l => (l.2, rest)
  | c :: rest => if c = '\\' then none else some (c, rest)

theorem hexValue_hexDigit : ∀ n < 16, hexValue (hexDigit n) = some n := by decide

/-- What the printer writes for a character is read as that character. -/
theorem readChar_escape (c : Char) (rest : List Char) :
    readChar (escape c ++ rest) = some (c, rest) := by
  unfold escape
  split
  next e he =>
    have hmem := List.mem_of_find?_eq_some he
    have hc : e.2 = c := by simpa using List.find?_some he
    subst hc
    simp only [letters, List.mem_cons, List.not_mem_nil, or_false] at hmem
    rcases hmem with rfl | rfl | rfl | rfl | rfl | rfl | rfl <;> rfl
  next hnone =>
    split
    next hcontrol =>
      have hhigh := hexValue_hexDigit (c.toNat / 16) (by omega)
      have hlow := hexValue_hexDigit (c.toNat % 16) (by omega)
      have hzero : hexValue '0' = some 0 := by decide
      have hvalue : 16 * (16 * (16 * (16 * 0 + 0) + 0) + c.toNat / 16) + c.toNat % 16 =
          c.toNat := by omega
      simp only [List.cons_append, List.nil_append, readChar, hzero, hhigh, hlow,
        Option.bind_eq_bind, Option.bind_some, List.foldl_cons, List.foldl_nil, hvalue,
        Char.ofNat_toNat]
    next =>
      have hne : c ≠ '\\' := by
        rintro rfl
        exact absurd hnone (by decide)
      simp only [List.cons_append, List.nil_append]
      unfold readChar
      split
      next h => cases h
      next h => exact absurd (List.cons.inj h).1 hne
      next h => exact absurd (List.cons.inj h).1 hne
      next h => exact absurd (List.cons.inj h).1 hne
      next h =>
        obtain ⟨rfl, rfl⟩ := List.cons.inj h
        exact if_neg hne

theorem escape_ne_quote (c : Char) : ∃ d l, escape c = d :: l ∧ d ≠ '"' := by
  rw [escape]
  split
  next e he => exact ⟨_, _, rfl, by decide⟩
  next hnone =>
    split
    next => exact ⟨_, _, rfl, by decide⟩
    next =>
      refine ⟨_, _, rfl, ?_⟩
      rintro rfl
      exact absurd hnone (by decide)

/-- The text of a string behind the opening quote. -/
def printChars (l : List Char) : List Char := l.flatMap escape ++ ['"']

/-- Read a string behind the opening quote. -/
def parseChars : ℕ → List Char → Option (List Char × List Char)
  | 0, _ => none
  | n + 1, text =>
    if text.head? = some '"' then some ([], text.tail)
    else (readChar text).bind fun (c, rest) =>
      (parseChars n rest).map fun (l, rest) => (c :: l, rest)

theorem parseChars_printChars (l : List Char) {n : ℕ} (hn : l.length < n) (rest : List Char) :
    parseChars n (printChars l ++ rest) = some (l, rest) := by
  induction l generalizing n with
  | nil =>
    obtain ⟨n, rfl⟩ : ∃ m, n = m + 1 := ⟨n - 1, by omega⟩
    rfl
  | cons c l ih =>
    obtain ⟨n, rfl⟩ : ∃ m, n = m + 1 := ⟨n - 1, by omega⟩
    obtain ⟨d, m, hd, hne⟩ := escape_ne_quote c
    have htext : printChars (c :: l) ++ rest = escape c ++ (printChars l ++ rest) := by
      simp [printChars]
    have hhead : (escape c ++ (printChars l ++ rest)).head? ≠ some '"' := by
      rw [hd]
      simpa using hne
    rw [htext, parseChars, if_neg hhead, readChar_escape, Option.bind_some]
    simp only [ih (by simpa using hn), Option.map_some]

/-- A string is read back from its text, whatever follows it. -/
theorem parseChars_toList (s : String) (rest : List Char) :
    parseChars ((printChars s.toList ++ rest).length + 1) (printChars s.toList ++ rest) =
      some (s.toList, rest) := by
  refine parseChars_printChars _ ?_ rest
  have hlength : s.toList.length ≤ (s.toList.flatMap escape).length := by
    induction s.toList with
    | nil => rfl
    | cons c l ih =>
      obtain ⟨d, m, hd, -⟩ := escape_ne_quote c
      rw [List.flatMap_cons, hd]
      simp only [List.length_cons, List.length_append]
      omega
  simp only [printChars, List.length_append]
  omega

/-! ### Trees -/

mutual

/-- The text of a tree. -/
def print : Json ℤ → List Char
  | .null => ['n', 'u', 'l', 'l']
  | .bool true => ['t', 'r', 'u', 'e']
  | .bool false => ['f', 'a', 'l', 's', 'e']
  | .num n => (toString n).toList
  | .str s => '"' :: printChars s.toList
  | .arr items => '[' :: printItems items
  | .obj entries => '{' :: printEntries entries

/-- The text of the items of an array behind the opening bracket. -/
def printItems : List (Json ℤ) → List Char
  | [] => [']']
  | [j] => print j ++ [']']
  | j :: i :: items => print j ++ ',' :: printItems (i :: items)

/-- The text of the entries of an object behind the opening brace. -/
def printEntries : List (String × Json ℤ) → List Char
  | [] => ['}']
  | [(key, j)] => '"' :: printChars key.toList ++ ':' :: print j ++ ['}']
  | (key, j) :: e :: entries =>
    '"' :: printChars key.toList ++ ':' :: print j ++ ',' :: printEntries (e :: entries)

end

/-- Whether a character can stand in a number. -/
def isNumberChar (c : Char) : Bool := c.isDigit || c = '-'

/-- Read a number. -/
def parseNumber (text : List Char) : Option (Json ℤ × List Char) :=
  (String.ofList (text.takeWhile isNumberChar)).toInt?.map fun n =>
    (.num n, text.dropWhile isNumberChar)

mutual

/-- Read a tree. -/
def parseValue : ℕ → List Char → Option (Json ℤ × List Char)
  | 0, _ => none
  | n + 1, text =>
    match text with
    | 'n' :: 'u' :: 'l' :: 'l' :: rest => some (.null, rest)
    | 't' :: 'r' :: 'u' :: 'e' :: rest => some (.bool true, rest)
    | 'f' :: 'a' :: 'l' :: 's' :: 'e' :: rest => some (.bool false, rest)
    | '"' :: rest =>
      (parseChars (rest.length + 1) rest).map fun (l, rest) => (.str (.ofList l), rest)
    | '[' :: rest =>
      if rest.head? = some ']' then some (.arr [], rest.tail)
      else (parseItems n rest).map fun (items, rest) => (.arr items, rest)
    | '{' :: rest =>
      if rest.head? = some '}' then some (.obj [], rest.tail)
      else (parseEntries n rest).map fun (entries, rest) => (.obj entries, rest)
    | text => parseNumber text

/-- Read the items of an array, of which there is at least one. -/
def parseItems : ℕ → List Char → Option (List (Json ℤ) × List Char)
  | 0, _ => none
  | n + 1, text =>
    match parseValue n text with
    | some (j, ']' :: rest) => some ([j], rest)
    | some (j, ',' :: rest) => (parseItems n rest).map fun (items, rest) => (j :: items, rest)
    | _ => none

/-- Read the entries of an object, of which there is at least one. -/
def parseEntries : ℕ → List Char → Option (List (String × Json ℤ) × List Char)
  | 0, _ => none
  | n + 1, '"' :: text =>
    match parseChars (text.length + 1) text with
    | some (key, ':' :: text) =>
      match parseValue n text with
      | some (j, '}' :: rest) => some ([(.ofList key, j)], rest)
      | some (j, ',' :: rest) =>
        (parseEntries n rest).map fun (entries, rest) => ((.ofList key, j) :: entries, rest)
      | _ => none
    | _ => none
  | _ + 1, _ => none

end

/-- A text that does not go on with a character of a number. -/
def Ends (rest : List Char) : Prop := ∀ c, rest.head? = some c → isNumberChar c = false

theorem ends_cons {c : Char} (hc : isNumberChar c = false) (rest : List Char) :
    Ends (c :: rest) := by
  rintro d hd
  obtain rfl : c = d := by simpa using hd
  exact hc

theorem isNumberChar_of_mem {n : ℤ} {c : Char} (h : c ∈ (toString n).toList) :
    isNumberChar c = true := by
  rcases Text.mem_toList_toString_int h with rfl | hdigit
  · decide
  · simp [isNumberChar, hdigit]

theorem parseNumber_toString (n : ℤ) {rest : List Char} (hrest : Ends rest) :
    parseNumber ((toString n).toList ++ rest) = some (.num n, rest) := by
  have hnumber : ∀ c ∈ (toString n).toList, isNumberChar c = true := fun c => isNumberChar_of_mem
  have hstop : rest.takeWhile isNumberChar = [] ∧ rest.dropWhile isNumberChar = rest := by
    cases rest with
    | nil => exact ⟨rfl, rfl⟩
    | cons c rest => simp [hrest c rfl]
  have hread : (toString n).toInt? = some n := Int.toInt?_repr n
  rw [parseNumber, List.takeWhile_append_of_pos hnumber, List.dropWhile_append_of_pos hnumber,
    hstop.1, hstop.2, List.append_nil, String.ofList_toList, hread, Option.map_some]

/-- A text that starts like a number is read as a number. -/
theorem parseValue_number {c : Char} (hc : isNumberChar c = true) (l : List Char) (n : ℕ) :
    parseValue (n + 1) (c :: l) = parseNumber (c :: l) := by
  unfold parseValue
  split
  case h_7 => rfl
  all_goals
    next h =>
      obtain ⟨rfl, -⟩ := List.cons.inj h
      exact absurd hc (by decide)

/-- No tree starts like the end of an array. -/
theorem print_head (j : Json ℤ) : ∃ c l, print j = c :: l ∧ c ≠ ']' := by
  cases j with
  | null => exact ⟨_, _, rfl, by decide⟩
  | bool b => cases b <;> exact ⟨_, _, rfl, by decide⟩
  | num n =>
    obtain ⟨c, l, h⟩ := List.exists_cons_of_ne_nil (Text.toList_toString_int_ne_nil n)
    refine ⟨c, l, h, ?_⟩
    rintro rfl
    have hnumber := isNumberChar_of_mem (n := n) (h ▸ List.mem_cons_self)
    exact absurd hnumber (by decide)
  | str s => exact ⟨_, _, rfl, by decide⟩
  | arr items => exact ⟨_, _, rfl, by decide⟩
  | obj entries => exact ⟨_, _, rfl, by decide⟩

/-- A tree is read back from its text, with a bound that the length of the text is enough for. -/
def ReadsBack (j : Json ℤ) : Prop :=
  ∀ (n : ℕ) (rest : List Char), (print j).length ≤ n → Ends rest →
    parseValue n (print j ++ rest) = some (j, rest)

theorem parseItems_printItems {items : List (Json ℤ)} (hitems : ∀ j ∈ items, ReadsBack j)
    (hne : items ≠ []) (n : ℕ) (rest : List Char) (hn : (printItems items).length ≤ n) :
    parseItems n (printItems items ++ rest) = some (items, rest) := by
  induction items generalizing n with
  | nil => exact absurd rfl hne
  | cons j items ih =>
    obtain ⟨hj, hitems⟩ := List.forall_mem_cons.mp hitems
    cases items with
    | nil =>
      simp only [printItems, List.length_append, List.length_singleton] at hn
      obtain ⟨n, rfl⟩ : ∃ m, n = m + 1 := ⟨n - 1, by omega⟩
      have hvalue := hj n (']' :: rest) (by omega) (ends_cons (by decide) _)
      simp only [printItems, List.append_assoc, List.singleton_append, parseItems, hvalue]
    | cons i items =>
      simp only [printItems, List.length_append, List.length_cons] at hn
      obtain ⟨n, rfl⟩ : ∃ m, n = m + 1 := ⟨n - 1, by omega⟩
      have hvalue := hj n (',' :: (printItems (i :: items) ++ rest)) (by omega)
        (ends_cons (by decide) _)
      simp only [printItems, List.append_assoc, List.cons_append, parseItems, hvalue,
        ih hitems (List.cons_ne_nil _ _) n (by omega), Option.map_some]

theorem parseEntries_printEntries {entries : List (String × Json ℤ)}
    (hentries : ∀ e ∈ entries, ReadsBack e.2) (hne : entries ≠ []) (n : ℕ) (rest : List Char)
    (hn : (printEntries entries).length ≤ n) :
    parseEntries n (printEntries entries ++ rest) = some (entries, rest) := by
  induction entries generalizing n with
  | nil => exact absurd rfl hne
  | cons e entries ih =>
    obtain ⟨key, j⟩ := e
    obtain ⟨hj, hentries⟩ := List.forall_mem_cons.mp hentries
    have hj : ReadsBack j := hj
    cases entries with
    | nil =>
      simp only [printEntries, List.length_append, List.length_cons, List.length_nil] at hn
      obtain ⟨n, rfl⟩ : ∃ m, n = m + 1 := ⟨n - 1, by omega⟩
      have hvalue := hj n ('}' :: rest) (by omega) (ends_cons (by decide) _)
      simp only [printEntries, List.cons_append, List.append_assoc, List.nil_append, parseEntries,
        parseChars_toList, hvalue, String.ofList_toList]
    | cons e entries =>
      simp only [printEntries, List.length_append, List.length_cons] at hn
      obtain ⟨n, rfl⟩ : ∃ m, n = m + 1 := ⟨n - 1, by omega⟩
      have hvalue := hj n (',' :: (printEntries (e :: entries) ++ rest)) (by omega)
        (ends_cons (by decide) _)
      simp only [printEntries, List.cons_append, List.append_assoc, parseEntries,
        parseChars_toList, hvalue, String.ofList_toList,
        ih hentries (List.cons_ne_nil _ _) n (by omega), Option.map_some]

theorem readsBack (j : Json ℤ) : ReadsBack j := by
  induction j using induct with
  | null =>
    intro n rest hn _
    obtain ⟨n, rfl⟩ : ∃ m, n = m + 1 := ⟨n - 1, by simp [print] at hn; omega⟩
    rfl
  | bool b =>
    intro n rest hn _
    obtain ⟨n, rfl⟩ : ∃ m, n = m + 1 := ⟨n - 1, by cases b <;> simp [print] at hn <;> omega⟩
    cases b <;> rfl
  | num m =>
    intro n rest hn hrest
    obtain ⟨c, l, h⟩ := List.exists_cons_of_ne_nil (Text.toList_toString_int_ne_nil m)
    rw [print, h, List.length_cons] at hn
    obtain ⟨n, rfl⟩ : ∃ k, n = k + 1 := ⟨n - 1, by omega⟩
    have hc : isNumberChar c = true := isNumberChar_of_mem (n := m) (h ▸ List.mem_cons_self)
    rw [print, h, List.cons_append, parseValue_number hc, ← List.cons_append, ← h,
      parseNumber_toString m hrest]
  | str s =>
    intro n rest hn _
    rw [print, List.length_cons] at hn
    obtain ⟨n, rfl⟩ : ∃ m, n = m + 1 := ⟨n - 1, by omega⟩
    simp only [print, List.cons_append, parseValue, parseChars_toList, Option.map_some,
      String.ofList_toList]
  | arr items ih =>
    intro n rest hn _
    rw [print, List.length_cons] at hn
    obtain ⟨n, rfl⟩ : ∃ m, n = m + 1 := ⟨n - 1, by omega⟩
    cases items with
    | nil => rfl
    | cons j items =>
      have hitems := parseItems_printItems ih (List.cons_ne_nil _ _) n rest (by omega)
      have hopen : (printItems (j :: items) ++ rest).head? ≠ some ']' := by
        obtain ⟨c, l, hc, hne⟩ := print_head j
        cases items <;> simp [printItems, hc, hne]
      simp only [print, List.cons_append, parseValue, if_neg hopen, hitems, Option.map_some]
  | obj entries ih =>
    intro n rest hn _
    rw [print, List.length_cons] at hn
    obtain ⟨n, rfl⟩ : ∃ m, n = m + 1 := ⟨n - 1, by omega⟩
    cases entries with
    | nil => rfl
    | cons e entries =>
      have hentries := parseEntries_printEntries ih (List.cons_ne_nil _ _) n rest (by omega)
      have hopen : (printEntries (e :: entries) ++ rest).head? ≠ some '}' := by
        cases entries <;> simp [printEntries]
      simp only [print, List.cons_append, parseValue, if_neg hopen, hentries, Option.map_some]

/-- The text of a tree as a string. -/
def printString (j : Json ℤ) : String := .ofList (print j)

/-- Read a string that holds a tree and nothing else. -/
def parseString (s : String) : Option (Json ℤ) :=
  match parseValue s.length s.toList with
  | some (j, []) => some j
  | _ => none

/-- **The parser reads back what the printer prints.** -/
theorem parseString_printString (j : Json ℤ) : parseString (printString j) = some j := by
  have hread := readsBack j (print j).length [] le_rfl (by simp [Ends])
  rw [List.append_nil] at hread
  have hlength : (printString j).length = (print j).length := by simp [printString]
  have hlist : (printString j).toList = print j := by simp [printString]
  rw [parseString, hlength, hlist, hread]

end Json

end Gwems
