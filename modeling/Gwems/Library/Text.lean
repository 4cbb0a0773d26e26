import Mathlib

/-!
# Texts that are joined from pieces

A text written as pieces with a separator between them can be read back when no piece contains the
first character of the separator: `intercalate_injective`. The pieces here are mostly the decimal
forms of integers, whose characters `mem_toList_toString_int` lists.

How the pieces begin and end can be seen in the joined text: `forall_splitOn_iff`.
-/

namespace Gwems

namespace Text

variable {α : Type*}

/-- The rest of a separator can be counted to the pieces behind it. -/
theorem intercalate_cons_eq (c : α) (r : List α) (x : List α) (xs : List (List α)) :
    (c :: r).intercalate (x :: xs) = [c].intercalate (x :: xs.map (r ++ ·)) := by
  induction xs generalizing x with
  | nil => simp
  | cons y ys ih =>
    have hhead : [c].intercalate ((r ++ y) :: ys.map (r ++ ·)) =
        r ++ [c].intercalate (y :: ys.map (r ++ ·)) := by
      cases ys <;> simp [List.intercalate]
    rw [List.map_cons, List.intercalate_cons_cons, List.intercalate_cons_cons, hhead, ih]
    simp

/-- Lists of pieces with the same joined text are the same, if no piece contains the first
character of the separator. -/
theorem list_intercalate_injective [DecidableEq α] {c : α} {r : List α} (hr : c ∉ r)
    {xs ys : List (List α)} (hxs : ∀ x ∈ xs, c ∉ x) (hys : ∀ y ∈ ys, c ∉ y) (hxs' : xs ≠ [])
    (hys' : ys ≠ []) (h : (c :: r).intercalate xs = (c :: r).intercalate ys) : xs = ys := by
  -- pieces with the rest of the separator in front are still free of its first character
  have hfree : ∀ (z : List α) (zs : List (List α)), (∀ w ∈ z :: zs, c ∉ w) →
      ∀ w ∈ z :: zs.map (r ++ ·), c ∉ w := by
    intro z zs hzs w hw
    rcases List.mem_cons.mp hw with rfl | hw
    · exact hzs _ List.mem_cons_self
    · obtain ⟨v, hv, rfl⟩ := List.mem_map.mp hw
      rw [List.mem_append, not_or]
      exact ⟨hr, hzs v (List.mem_cons_of_mem _ hv)⟩
  obtain ⟨x, xs, rfl⟩ := List.exists_cons_of_ne_nil hxs'
  obtain ⟨y, ys, rfl⟩ := List.exists_cons_of_ne_nil hys'
  rw [intercalate_cons_eq c r x, intercalate_cons_eq c r y] at h
  have hsplit := congrArg (List.splitOn c) h
  rw [List.splitOn_intercalate c (hfree x xs hxs) (List.cons_ne_nil _ _),
    List.splitOn_intercalate c (hfree y ys hys) (List.cons_ne_nil _ _)] at hsplit
  obtain ⟨rfl, htail⟩ := List.cons.inj hsplit
  rw [List.map_injective_iff.mpr (List.append_right_injective r) htail]

/-- The same for strings. -/
theorem intercalate_injective {sep : String} {c : Char} {r : List Char}
    (hsep : sep.toList = c :: r) (hr : c ∉ r) {xs ys : List String}
    (hxs : ∀ x ∈ xs, c ∉ x.toList) (hys : ∀ y ∈ ys, c ∉ y.toList) (hxs' : xs ≠ [])
    (hys' : ys ≠ []) (h : sep.intercalate xs = sep.intercalate ys) : xs = ys := by
  have hlist : (c :: r).intercalate (xs.map String.toList) =
      (c :: r).intercalate (ys.map String.toList) := by
    rw [← hsep, ← String.toList_intercalate, ← String.toList_intercalate, h]
  have hfree : ∀ {zs : List String}, (∀ z ∈ zs, c ∉ z.toList) →
      ∀ w ∈ zs.map String.toList, c ∉ w := by
    intro zs hzs w hw
    obtain ⟨z, hz, rfl⟩ := List.mem_map.mp hw
    exact hzs z hz
  exact List.map_injective_iff.mpr (fun _ _ h => String.toList_injective h)
    (list_intercalate_injective hr (hfree hxs) (hfree hys) (by simpa using hxs')
      (by simpa using hys') hlist)

/-- The decimal form of an integer consists of digits and a sign. -/
theorem mem_toList_toString_int {n : ℤ} {c : Char} (h : c ∈ (toString n).toList) :
    c = '-' ∨ c.isDigit = true := by
  have hdigits : ∀ m : ℕ, c ∈ m.repr.toList → c.isDigit = true := by
    intro m hm
    rw [Nat.toList_repr] at hm
    exact Nat.isDigit_of_mem_toDigits (by decide) (by decide) hm
  cases n with
  | ofNat m => exact .inr (hdigits m h)
  | negSucc m =>
    have happend : toString (Int.negSucc m) = "-" ++ (m + 1).repr := rfl
    rw [happend, String.toList_append, List.mem_append] at h
    rcases h with h | h
    · exact .inl (by simpa using h)
    · exact .inr (hdigits _ h)

theorem toList_toString_int_ne_nil (n : ℤ) : (toString n).toList ≠ [] := by
  cases n with
  | ofNat m =>
    have hdigits : (toString (Int.ofNat m)).toList = Nat.toDigits 10 m := Nat.toList_repr
    rw [hdigits]
    exact Nat.toDigits_ne_nil
  | negSucc m =>
    have happend : toString (Int.negSucc m) = "-" ++ (m + 1).repr := rfl
    rw [happend, String.toList_append]
    exact List.append_ne_nil_of_left_ne_nil (by decide) _

theorem toString_int_injective {m n : ℤ} (h : toString m = toString n) : m = n :=
  Int.repr_injective h

/-! ### Pieces and their ends -/

/-- Separators at the end are empty pieces. -/
theorem intercalate_cons_replicate_nil (c : α) (d : List α) (k : ℕ) :
    [c].intercalate (d :: List.replicate k []) = d ++ List.replicate k c := by
  induction k generalizing d with
  | zero => simp
  | succ k ih =>
    rw [List.replicate_succ, List.intercalate_cons_cons, ih, List.replicate_succ]
    simp

/-- What is left when the last pieces are dropped that are all the same. -/
theorem rdropWhile_eq_iff [DecidableEq α] {a : α} {l m : List α}
    (hm : ∀ h : m ≠ [], m.getLast h ≠ a) :
    l.rdropWhile (· = a) = m ↔ ∃ k, l = m ++ List.replicate k a := by
  constructor
  · rintro rfl
    refine ⟨(l.rtakeWhile (· = a)).length, ?_⟩
    have hdropped : l.rtakeWhile (· = a) = List.replicate (l.rtakeWhile (· = a)).length a :=
      List.eq_replicate_length.mpr fun b hb => by simpa using List.mem_rtakeWhile_imp hb
    rw [← hdropped, List.rdropWhile_append_rtakeWhile]
  · rintro ⟨k, rfl⟩
    induction k with
    | zero =>
      rw [List.replicate_zero, List.append_nil, List.rdropWhile_eq_self_iff]
      exact fun h => by simpa using hm h
    | succ k ih =>
      rw [List.replicate_succ', ← List.append_assoc, List.rdropWhile_concat_pos _ _ _ (by simp), ih]

/-- Two elements stand side by side in a list. -/
theorem pair_infix_iff {a b : α} {l : List α} :
    [a, b] <:+: l ↔ ∃ l₁ l₂, l = l₁ ++ a :: b :: l₂ := by
  constructor
  · rintro ⟨l₁, l₂, rfl⟩
    exact ⟨l₁, l₂, by simp⟩
  · rintro ⟨l₁, l₂, rfl⟩
    exact ⟨l₁, l₂, by simp⟩

/-- A list is a piece without separators, or one with a separator and a list behind it. -/
theorem split_induction [DecidableEq α] {s : α} {P : List α → Prop}
    (piece : ∀ c, s ∉ c → P c) (join : ∀ c l, s ∉ c → P l → P (c ++ s :: l)) (l : List α) :
    P l := by
  induction hn : l.length using Nat.strong_induction_on generalizing l with
  | _ n ih =>
    by_cases hs : s ∈ l
    · obtain ⟨c, rest, rfl, hc⟩ := List.eq_append_cons_of_mem hs
      refine join c rest hc (ih rest.length ?_ rest rfl)
      rw [← hn, List.length_append, List.length_cons]
      omega
    · exact piece l hs

/-- The two orders of a separator and a mark side by side. -/
def Apart (s d a b : α) : Prop := ¬(a = s ∧ b = d) ∧ ¬(a = d ∧ b = s)

/-- A mark stands neither beside a separator nor at an end. -/
structure Unmarked (s d : α) (l : List α) : Prop where
  behind : ¬ [s, d] <:+: l
  before : ¬ [d, s] <:+: l
  first : l.head? ≠ some d
  last : l.getLast? ≠ some d

theorem unmarked_iff {s d : α} {l : List α} :
    Unmarked s d l ↔ l.IsChain (Apart s d) ∧ l.head? ≠ some d ∧ l.getLast? ≠ some d := by
  have hchain : l.IsChain (Apart s d) ↔ ¬ [s, d] <:+: l ∧ ¬ [d, s] <:+: l := by
    rw [pair_infix_iff, pair_infix_iff, List.isChain_iff_forall_rel_of_append_cons_cons]
    constructor
    · intro h
      constructor
      · rintro ⟨l₁, l₂, hl⟩
        exact (h hl).1 ⟨rfl, rfl⟩
      · rintro ⟨l₁, l₂, hl⟩
        exact (h hl).2 ⟨rfl, rfl⟩
    · rintro ⟨hsd, hds⟩ a b l₁ l₂ hl
      constructor
      · rintro ⟨rfl, rfl⟩
        exact hsd ⟨l₁, l₂, hl⟩
      · rintro ⟨rfl, rfl⟩
        exact hds ⟨l₁, l₂, hl⟩
  rw [hchain]
  exact ⟨fun h => ⟨⟨h.behind, h.before⟩, h.first, h.last⟩,
    fun h => ⟨h.1.1, h.1.2, h.2.1, h.2.2⟩⟩

/-- A piece without separators is unmarked if it is at its ends. -/
theorem unmarked_iff_of_notMem {s d : α} {c : List α} (hc : s ∉ c) :
    Unmarked s d c ↔ c.head? ≠ some d ∧ c.getLast? ≠ some d := by
  have hmem : ∀ {a b : α}, [a, b] <:+: c → a ∈ c ∧ b ∈ c := fun h =>
    ⟨h.subset List.mem_cons_self, h.subset (List.mem_cons_of_mem _ List.mem_cons_self)⟩
  exact ⟨fun h => ⟨h.first, h.last⟩,
    fun h => ⟨fun hin => hc (hmem hin).1, fun hin => hc (hmem hin).2, h.1, h.2⟩⟩

theorem unmarked_append_iff {s d : α} (hne : d ≠ s) {c : List α} (hc : s ∉ c) (l : List α) :
    Unmarked s d (c ++ s :: l) ↔ (c.head? ≠ some d ∧ c.getLast? ≠ some d) ∧ Unmarked s d l := by
  have hhead : (c ++ s :: l).head? ≠ some d ↔ c.head? ≠ some d := by
    cases c with
    | nil => simp [Ne.symm hne]
    | cons a c => simp
  have hlast : (c ++ s :: l).getLast? ≠ some d ↔ l.getLast? ≠ some d := by
    cases l with
    | nil => simp [Ne.symm hne]
    | cons a l => simp [List.getLast?_append]
  have hbehind : (∀ y ∈ l.head?, Apart s d s y) ↔ l.head? ≠ some d := by
    constructor
    · exact fun h hd => (h d hd).1 ⟨rfl, rfl⟩
    · rintro h y hy
      refine ⟨?_, fun hs => hne hs.1.symm⟩
      rintro ⟨-, rfl⟩
      exact h hy
  have hbefore : (∀ x ∈ c.getLast?, ∀ y ∈ (s :: l).head?, Apart s d x y) ↔
      c.getLast? ≠ some d := by
    simp only [List.head?_cons, Option.mem_some_iff, forall_eq']
    constructor
    · exact fun h hd => (h d hd).2 ⟨rfl, rfl⟩
    · rintro h x hx
      refine ⟨fun hs => hne hs.2.symm, ?_⟩
      rintro ⟨rfl, -⟩
      exact h hx
  have hpiece := unmarked_iff_of_notMem (d := d) hc
  rw [unmarked_iff] at hpiece
  rw [unmarked_iff, unmarked_iff, List.isChain_append, List.isChain_cons, hhead, hlast, hbehind,
    hbefore]
  constructor
  · rintro ⟨⟨-, ⟨hl, hchain⟩, hc⟩, hc', hl'⟩
    exact ⟨⟨hc', hc⟩, hchain, hl, hl'⟩
  · rintro ⟨hends, hchain, hl, hl'⟩
    exact ⟨⟨(hpiece.mpr hends).1, ⟨hl, hchain⟩, hends.2⟩, hends.1, hl'⟩

/-- **The pieces between separators** begin and end without the mark, if and only if no mark stands
beside a separator or at an end. -/
theorem forall_splitOn_iff [DecidableEq α] {s d : α} (hne : d ≠ s) (l : List α) :
    (∀ c ∈ l.splitOn s, c.head? ≠ some d ∧ c.getLast? ≠ some d) ↔ Unmarked s d l := by
  induction l using split_induction (s := s) with
  | piece c hc => rw [List.splitOn_eq_singleton hc, unmarked_iff_of_notMem hc]; simp
  | join c l hc ih =>
    rw [List.splitOn_append_cons_self_of_not_mem hc, List.forall_mem_cons, ih,
      unmarked_append_iff hne hc]

theorem notMem_of_mem_splitOn [DecidableEq α] {s : α} {l part : List α} (h : part ∈ l.splitOn s) :
    s ∉ part := by
  induction l using split_induction (s := s) with
  | piece c hc =>
    rw [List.splitOn_eq_singleton hc, List.mem_singleton] at h
    rwa [h]
  | join c l hc ih =>
    rw [List.splitOn_append_cons_self_of_not_mem hc, List.mem_cons] at h
    rcases h with rfl | h
    · exact hc
    · exact ih h

/-- The pieces have nothing that is not in the list. -/
theorem mem_of_mem_splitOn [DecidableEq α] {s a : α} {l part : List α} (h : part ∈ l.splitOn s)
    (ha : a ∈ part) : a ∈ l := by
  induction l using split_induction (s := s) with
  | piece c hc =>
    rw [List.splitOn_eq_singleton hc, List.mem_singleton] at h
    rwa [← h]
  | join c l hc ih =>
    rw [List.splitOn_append_cons_self_of_not_mem hc, List.mem_cons] at h
    rw [List.mem_append, List.mem_cons]
    rcases h with rfl | h
    · exact .inl ha
    · exact .inr (.inr (ih h))

/-- What is not a separator is in a piece. -/
theorem exists_mem_splitOn [DecidableEq α] {s a : α} {l : List α} (h : a ∈ l) (hne : a ≠ s) :
    ∃ part ∈ l.splitOn s, a ∈ part := by
  induction l using split_induction (s := s) with
  | piece c hc => exact ⟨c, by rw [List.splitOn_eq_singleton hc]; exact List.mem_singleton_self c, h⟩
  | join c l hc ih =>
    rw [List.splitOn_append_cons_self_of_not_mem hc]
    rw [List.mem_append, List.mem_cons] at h
    rcases h with h | rfl | h
    · exact ⟨c, List.mem_cons_self, h⟩
    · exact absurd rfl hne
    · obtain ⟨part, hpart, ha⟩ := ih h
      exact ⟨part, List.mem_cons_of_mem _ hpart, ha⟩

theorem head?_splitOn [DecidableEq α] (s : α) (l : List α) :
    (l.splitOn s).head? = some (l.takeWhile (· ≠ s)) := by
  induction l using split_induction (s := s) with
  | piece c hc =>
    rw [List.splitOn_eq_singleton hc, List.head?_cons, List.takeWhile_eq_self_iff.mpr]
    intro a ha
    simpa using ne_of_mem_of_not_mem ha hc
  | join c l hc ih =>
    rw [List.splitOn_append_cons_self_of_not_mem hc, List.head?_cons,
      List.takeWhile_append_of_pos fun a ha => by simpa using ne_of_mem_of_not_mem ha hc,
      List.takeWhile_cons_of_neg (by simp), List.append_nil]

theorem splitOn_eq_cons [DecidableEq α] (s : α) (l : List α) :
    l.splitOn s = l.takeWhile (· ≠ s) :: (l.splitOn s).tail :=
  (List.cons_head?_tail (head?_splitOn s l)).symm

/-- The pieces behind the first one stand behind a separator. -/
theorem mem_tail_splitOn_iff [DecidableEq α] {s : α} {l part : List α} :
    part ∈ (l.splitOn s).tail ↔ ∃ l₁ l₂, l = l₁ ++ s :: l₂ ∧ l₂.takeWhile (· ≠ s) = part := by
  induction l using split_induction (s := s) with
  | piece c hc =>
    rw [List.splitOn_eq_singleton hc]
    refine iff_of_false (by simp) ?_
    rintro ⟨l₁, l₂, rfl, -⟩
    simp at hc
  | join c l hc ih =>
    rw [List.splitOn_append_cons_self_of_not_mem hc, List.tail_cons]
    rw [splitOn_eq_cons, List.mem_cons, ih]
    constructor
    · rintro (rfl | ⟨l₁, l₂, rfl, hpart⟩)
      · exact ⟨c, l, rfl, rfl⟩
      · exact ⟨c ++ s :: l₁, l₂, by simp, hpart⟩
    · rintro ⟨l₁, l₂, hl, hpart⟩
      rcases List.append_eq_append_iff.mp hl with ⟨m, rfl, hm⟩ | ⟨m, rfl, hm⟩
      · cases m with
        | nil =>
          obtain ⟨-, rfl⟩ := List.cons.inj hm
          exact .inl hpart.symm
        | cons a m =>
          obtain ⟨rfl, rfl⟩ := List.cons.inj hm
          exact .inr ⟨m, l₂, rfl, hpart⟩
      · cases m with
        | nil =>
          obtain ⟨-, rfl⟩ := List.cons.inj hm
          exact .inl hpart.symm
        | cons a m =>
          obtain ⟨rfl, -⟩ := List.cons.inj hm
          simp at hc

theorem of_mem_head?_dropWhile {p : α → Bool} {l : List α} {a : α}
    (h : a ∈ (l.dropWhile p).head?) : p a = false := by
  have hnot := List.head?_dropWhile_not p l
  rw [h] at hnot
  exact hnot

theorem dropWhile_of_head? {p : α → Bool} {l : List α} (h : ∀ a ∈ l.head?, p a = false) :
    l.dropWhile p = l := by
  cases l with
  | nil => rfl
  | cons a l => exact List.dropWhile_cons_of_neg (by simp [h a rfl])

/-- What is wanted ends with a list, if what is behind it begins with something else. -/
theorem takeWhile_append_of_head? {p : α → Bool} {l rest : List α}
    (hrest : ∀ a ∈ rest.head?, p a = false) : (l ++ rest).takeWhile p = l.takeWhile p := by
  have hnil : rest.takeWhile p = [] := by
    cases rest with
    | nil => rfl
    | cons a rest => exact List.takeWhile_cons_of_neg (by simp [hrest a rfl])
  rw [List.takeWhile_append, hnil, List.append_nil]
  split
  next h => exact ((List.takeWhile_prefix p).eq_of_length h).symm
  next => rfl

/-- Two texts that are written piece by piece, where no piece of the one is longer than that of the
other, are the same only if all pieces are. -/
theorem flatMap_eq_flatMap_iff {β : Type*} {f g : α → List β}
    (hle : ∀ a, (f a).length ≤ (g a).length) {l : List α} :
    l.flatMap f = l.flatMap g ↔ ∀ a ∈ l, f a = g a := by
  have hsum : ∀ l : List α, (l.flatMap f).length ≤ (l.flatMap g).length := by
    intro l
    rw [List.length_flatMap, List.length_flatMap]
    exact List.sum_le_sum fun a _ => hle a
  constructor
  · intro h
    induction l with
    | nil => simp
    | cons a l ih =>
      rw [List.flatMap_cons, List.flatMap_cons] at h
      have hlength := congrArg List.length h
      rw [List.length_append, List.length_append] at hlength
      have ha := hle a
      have hl := hsum l
      obtain ⟨hfirst, hrest⟩ := List.append_inj h (by omega)
      exact List.forall_mem_cons.mpr ⟨hfirst, ih hrest⟩
  · intro h
    rw [List.flatMap_def, List.flatMap_def, List.map_congr_left h]

/-! ### Readers -/

/-- A reader succeeds if both of its parts do. -/
theorem bind_eq_ok_iff {ε α β : Type} {x : Except ε α} {f : α → Except ε β} {b : β} :
    (x >>= f) = .ok b ↔ ∃ a, x = .ok a ∧ f a = .ok b := by
  cases x with
  | error e => exact iff_of_false (fun h => by cases h) (by rintro ⟨a, h, -⟩; cases h)
  | ok a =>
    constructor
    · exact fun h => ⟨a, rfl, h⟩
    · rintro ⟨a', ha, h⟩
      obtain rfl := Except.ok.inj ha
      exact h

end Text

end Gwems
