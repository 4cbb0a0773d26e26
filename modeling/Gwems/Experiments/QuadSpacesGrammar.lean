import Gwems.Experiments.QuadSpaces

/-!
# `QuadSpaces.java`: which strings are quads

"x_y_z_p where x_y_z have to have values [-2..1] and p is an even integer": `getMinMax` and
`getMinCorner` split a string at its underscores, read four integers, and test the first three with
a mask that no other `int` passes (`isSigned2Bit_iff`), also where the sum with two wraps around.

They do not look at the last bit of `p`, and they do not see underscores at the end, since `split`
drops empty parts there. `parse_eq_ok_iff` says what they accept, and `readsGrammar_iff` for which
strings this is what the comment asks for.
-/

namespace Gwems

namespace Experiments

open QuadSpaces (Quad)

/-! ### The grammar -/

/-- A string of four decimal numerals with underscores in between, and `k` underscores at the
end. -/
def Reads (s : String) (q : Quad) (k : ℕ) : Prop :=
  ∃ x y z p : List Char,
    s.toList = x ++ '_' :: (y ++ '_' :: (z ++ '_' :: (p ++ List.replicate k '_'))) ∧
    Numeral.int? 10 x = some q.digits.x ∧ Numeral.int? 10 y = some q.digits.y ∧
    Numeral.int? 10 z = some q.digits.z ∧ Numeral.int? 10 p = some q.p

/-- Values from -2 to 1. -/
def IsDigits (v : Vector3 ℤ) : Prop := v.Forall fun d => -2 ≤ d ∧ d ≤ 1

/-- `x_y_z_p`, where `x`, `y` and `z` are between -2 and 1 and `p` is even. -/
def InGrammar (s : String) : Prop := ∃ q, Reads s q 0 ∧ IsDigits q.digits ∧ Even q.p

/-! ### What is accepted -/

theorem parseInt_eq_ok_iff {s : String} {n : ℤ} :
    parseInt s = .ok n ↔ Numeral.int? 10 s.toList = some n ∧ IsInt32 n := by
  rw [parseInt]
  split
  next m hm =>
    rw [hm, Option.some_inj]
    split
    next hint =>
      constructor
      · intro h
        obtain rfl := Except.ok.inj h
        exact ⟨rfl, hint⟩
      · rintro ⟨rfl, -⟩
        rfl
    next hint =>
      refine iff_of_false (fun h => by cases h) ?_
      rintro ⟨rfl, h⟩
      exact hint h
  next hm =>
    rw [hm]
    exact iff_of_false (fun h => by cases h) (fun h => by cases h.1)

/-- **The mask is the range**: no `int` outside of it gets through, though the sum wraps around. -/
theorem isSigned2Bit_iff {i : ℤ} (hi : IsInt32 i) : IsSigned2Bit i ↔ -2 ≤ i ∧ i ≤ 1 := by
  have hmod := toInt32_modEq (i + 2)
  have hmem := isInt32_toInt32 (i + 2)
  rw [IsSigned2Bit]
  rw [IsInt32] at hi hmem
  rw [Int.ModEq] at hmod
  omega

theorem split_eq_iff {s x y z p : String} (hp : p ≠ "") :
    split s = [x, y, z, p] ↔
      ∃ k, s.toList.splitOn '_' = [x, y, z, p].map String.toList ++ List.replicate k [] := by
  have hlists : ∀ {l : List (List Char)} {m : List String},
      l.map String.ofList = m ↔ l = m.map String.toList := by
    intro l m
    constructor
    · rintro rfl
      simp [Function.comp_def]
    · rintro rfl
      simp [Function.comp_def]
  rw [split]
  split
  next hempty =>
    -- there is only one part
    subst hempty
    refine iff_of_false (fun h => by cases h) ?_
    rintro ⟨k, h⟩
    have hlength := congrArg List.length h
    simp at hlength
  next =>
    rw [Text.rdropWhile_eq_iff (fun _ => by simpa using hp)]
    refine exists_congr fun k => ?_
    rw [hlists, List.map_append, List.map_replicate]
    rfl

/-- What is read from the parts. -/
theorem parse_eq_ok_iff_split {s : String} {q : Quad} :
    parse s = .ok q ↔ ∃ x y z p, split s = [x, y, z, p] ∧ parseInt x = .ok q.digits.x ∧
      parseInt y = .ok q.digits.y ∧ parseInt z = .ok q.digits.z ∧
      q.digits.Forall IsSigned2Bit ∧ parseInt p = .ok q.p := by
  rw [parse]
  split
  next x y z p hsplit =>
    simp only [hsplit, List.cons.injEq, and_true]
    constructor
    · intro h
      obtain ⟨i0, hx, h⟩ := Text.bind_eq_ok_iff.mp h
      obtain ⟨i1, hy, h⟩ := Text.bind_eq_ok_iff.mp h
      obtain ⟨i2, hz, h⟩ := Text.bind_eq_ok_iff.mp h
      split at h
      next => cases h
      next hmask =>
        obtain ⟨scaleFactor, hp, h⟩ := Text.bind_eq_ok_iff.mp h
        obtain rfl := Except.ok.inj h
        push Not at hmask
        exact ⟨x, y, z, p, ⟨rfl, rfl, rfl, rfl⟩, hx, hy, hz, hmask, hp⟩
    · rintro ⟨_, _, _, _, ⟨rfl, rfl, rfl, rfl⟩, hx, hy, hz, ⟨h0, h1, h2⟩, hp⟩
      simp only [hx, hy, hz, hp, h0, h1, h2, not_true, or_self, if_false, bind, Except.bind]
      rfl
  next hother =>
    refine iff_of_false (fun h => by cases h) ?_
    rintro ⟨x, y, z, p, hsplit, -⟩
    exact hother x y z p hsplit

/-- A string is split at its underscores. -/
theorem reads_iff_splitOn {s : String} {q : Quad} {k : ℕ} :
    Reads s q k ↔ ∃ x y z p : List Char,
      s.toList.splitOn '_' = [x, y, z, p] ++ List.replicate k [] ∧
      Numeral.int? 10 x = some q.digits.x ∧ Numeral.int? 10 y = some q.digits.y ∧
      Numeral.int? 10 z = some q.digits.z ∧ Numeral.int? 10 p = some q.p := by
  have hfree : ∀ {l : List Char} {n : ℤ}, Numeral.int? 10 l = some n → '_' ∉ l := by
    intro l n h hmem
    have hnone := Numeral.value?_sign.2.2
    rcases (Numeral.of_int?_eq_some h).2 _ hmem with hc | hc | hc
    · exact absurd hc (by decide)
    · exact absurd hc (by decide)
    · rw [Numeral.digit?, hnone] at hc
      cases hc
  refine exists_congr fun x => exists_congr fun y => exists_congr fun z => exists_congr fun p => ?_
  refine and_congr_left fun h => ?_
  obtain ⟨hx, hy, hz, hp⟩ := h
  have hjoined : x ++ '_' :: (y ++ '_' :: (z ++ '_' :: (p ++ List.replicate k '_'))) =
      ['_'].intercalate ([x, y, z, p] ++ List.replicate k []) := by
    rw [← Text.intercalate_cons_replicate_nil]
    simp [List.intercalate_cons_cons]
  rw [hjoined]
  constructor
  · intro h
    rw [h]
    refine List.splitOn_intercalate '_' (fun l hl => ?_) (by simp)
    simp only [List.cons_append, List.nil_append, List.mem_cons, List.mem_replicate] at hl
    rcases hl with rfl | rfl | rfl | rfl | ⟨-, rfl⟩
    · exact hfree hx
    · exact hfree hy
    · exact hfree hz
    · exact hfree hp
    · exact List.not_mem_nil
  · intro h
    rw [← h, List.intercalate_splitOn]

/-- A string is read in one way. -/
theorem Reads.unique {s : String} {q r : Quad} {j k : ℕ} (hq : Reads s q j) (hr : Reads s r k) :
    q = r ∧ j = k := by
  obtain ⟨x, y, z, p, hsplit, hx, hy, hz, hp⟩ := reads_iff_splitOn.mp hq
  obtain ⟨x', y', z', p', hsplit', hx', hy', hz', hp'⟩ := reads_iff_splitOn.mp hr
  rw [hsplit] at hsplit'
  simp only [List.cons_append, List.nil_append, List.cons.injEq] at hsplit'
  obtain ⟨rfl, rfl, rfl, rfl, hends⟩ := hsplit'
  rw [hx, Option.some_inj] at hx'
  rw [hy, Option.some_inj] at hy'
  rw [hz, Option.some_inj] at hz'
  rw [hp, Option.some_inj] at hp'
  obtain ⟨⟨qx, qy, qz⟩, qp⟩ := q
  obtain ⟨⟨rx, ry, rz⟩, rp⟩ := r
  simp only at hx' hy' hz' hp'
  subst hx' hy' hz' hp'
  exact ⟨rfl, by simpa using congrArg List.length hends⟩

/-- **What is accepted**: digits between -2 and 1, any `int` behind them, and any number of
underscores at the end. -/
theorem parse_eq_ok_iff {s : String} {q : Quad} :
    parse s = .ok q ↔ (∃ k, Reads s q k) ∧ IsDigits q.digits ∧ IsInt32 q.p := by
  rw [parse_eq_ok_iff_split]
  constructor
  · rintro ⟨x, y, z, p, hsplit, hx, hy, hz, ⟨h0, h1, h2⟩, hp⟩
    rw [parseInt_eq_ok_iff] at hx hy hz hp
    have hne : p ≠ "" := by
      rintro rfl
      exact (Numeral.of_int?_eq_some hp.1).1 rfl
    obtain ⟨k, hparts⟩ := (split_eq_iff hne).mp hsplit
    exact ⟨⟨k, reads_iff_splitOn.mpr ⟨_, _, _, _, hparts, hx.1, hy.1, hz.1, hp.1⟩⟩,
      ⟨(isSigned2Bit_iff hx.2).mp h0, (isSigned2Bit_iff hy.2).mp h1, (isSigned2Bit_iff hz.2).mp h2⟩,
      hp.2⟩
  · rintro ⟨⟨k, hreads⟩, ⟨h0, h1, h2⟩, hp⟩
    obtain ⟨x, y, z, p, hparts, hx, hy, hz, hp'⟩ := reads_iff_splitOn.mp hreads
    have hint : ∀ {d : ℤ}, -2 ≤ d ∧ d ≤ 1 → IsInt32 d := by
      intro d hd
      rw [IsInt32]
      omega
    have hne : String.ofList p ≠ "" := by
      intro h
      have hlist := congrArg String.toList h
      rw [String.toList_ofList] at hlist
      exact (Numeral.of_int?_eq_some hp').1 hlist
    refine ⟨String.ofList x, String.ofList y, String.ofList z, String.ofList p,
      (split_eq_iff hne).mpr ⟨k, ?_⟩, parseInt_eq_ok_iff.mpr ⟨?_, hint h0⟩,
      parseInt_eq_ok_iff.mpr ⟨?_, hint h1⟩, parseInt_eq_ok_iff.mpr ⟨?_, hint h2⟩,
      ⟨(isSigned2Bit_iff (hint h0)).mpr h0, (isSigned2Bit_iff (hint h1)).mpr h1,
        (isSigned2Bit_iff (hint h2)).mpr h2⟩, parseInt_eq_ok_iff.mpr ⟨?_, hp⟩⟩
    · simpa using hparts
    · simpa using hx
    · simpa using hy
    · simpa using hz
    · simpa using hp'

/-! ### The contract -/

/-- A call returns normally. -/
def Returns {α : Type} (r : Except String α) : Prop := ∃ a, r = .ok a

/-- `getMinCorner` and `getMinMax` take the strings of the grammar, and throw for all others. -/
def ReadsGrammar (s : String) : Prop :=
  (InGrammar s → Returns (getMinCorner s) ∧ Returns (getMinMax s)) ∧
    (¬InGrammar s → ¬Returns (getMinCorner s) ∧ ¬Returns (getMinMax s))

theorem returns_map_iff {α β : Type} {r : Except String α} {f : α → β} :
    Returns (r.map f) ↔ Returns r := by
  cases r with
  | error e => exact iff_of_false (by rintro ⟨b, h⟩; cases h) (by rintro ⟨a, h⟩; cases h)
  | ok a => exact iff_of_true ⟨f a, rfl⟩ ⟨a, rfl⟩

/-- Both read a string the same way. -/
theorem readsGrammar_iff_returns {s : String} :
    ReadsGrammar s ↔ (Returns (parse s) ↔ InGrammar s) := by
  rw [ReadsGrammar, getMinCorner, getMinMax, returns_map_iff, returns_map_iff, and_self_iff,
    and_self_iff, not_imp_not, and_comm, ← iff_iff_implies_and_implies]

/-- **When the contract is met**: for every string but `x_y_z_p` with `x`, `y` and `z` between -2
and 1 and with underscores at the end or an odd `p`, if `p` is an `int`, or with neither, if it is
not. -/
theorem readsGrammar_iff (s : String) :
    ReadsGrammar s ↔
      ∀ q k, Reads s q k → IsDigits q.digits → (IsInt32 q.p ↔ Even q.p ∧ k = 0) := by
  rw [readsGrammar_iff_returns]
  constructor
  · intro h q k hreads hdigits
    constructor
    · intro hp
      obtain ⟨r, hr, -, heven⟩ := h.mp ⟨q, parse_eq_ok_iff.mpr ⟨⟨k, hreads⟩, hdigits, hp⟩⟩
      obtain ⟨rfl, rfl⟩ := hreads.unique hr
      exact ⟨heven, rfl⟩
    · rintro ⟨heven, rfl⟩
      obtain ⟨r, hr⟩ := h.mpr ⟨q, hreads, hdigits, heven⟩
      obtain ⟨⟨k, hr⟩, -, hp⟩ := parse_eq_ok_iff.mp hr
      obtain ⟨rfl, -⟩ := hreads.unique hr
      exact hp
  · intro h
    constructor
    · rintro ⟨q, hq⟩
      obtain ⟨⟨k, hreads⟩, hdigits, hp⟩ := parse_eq_ok_iff.mp hq
      obtain ⟨heven, rfl⟩ := (h q k hreads hdigits).mp hp
      exact ⟨q, hreads, hdigits, heven⟩
    · rintro ⟨q, hreads, hdigits, heven⟩
      exact ⟨q, parse_eq_ok_iff.mpr
        ⟨⟨0, hreads⟩, hdigits, (h q 0 hreads hdigits).mpr ⟨heven, rfl⟩⟩⟩

/-- "0_0_0_1 is an error", but is read. -/
theorem not_forall_readsGrammar : ¬∀ s, ReadsGrammar s := by
  intro hall
  have hreads : Reads "0_0_0_1" ⟨⟨0, 0, 0⟩, 1⟩ 0 :=
    ⟨['0'], ['0'], ['0'], ['1'], by decide, by decide, by decide, by decide, by decide⟩
  have hdigits : IsDigits ⟨0, 0, 0⟩ := ⟨by decide, by decide, by decide⟩
  have hparse := parse_eq_ok_iff.mpr ⟨⟨0, hreads⟩, hdigits, by decide⟩
  obtain ⟨r, hr, -, heven⟩ := (readsGrammar_iff_returns.mp (hall "0_0_0_1")).mp ⟨_, hparse⟩
  obtain ⟨rfl, -⟩ := hreads.unique hr
  exact absurd heven (by decide)

end Experiments

end Gwems
