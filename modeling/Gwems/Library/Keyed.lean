import Mathlib

/-!
# Sets and maps keyed by an equivalence

A collection library tells two keys apart either by their equality or by a comparison
function, and the two need not agree: a comparison that looks at one field of an object
identifies objects that are not equal. A `Keying` is such a decidable equivalence together
with the place a new key takes among the old ones.

* `KSet k α` is a list of elements no two of which are the same key. Adding an element
  whose key is already there keeps the old element, and removing an element removes
  whatever element has its key.
* `KMap k κ ν` is a list of entries no two of which have the same key. Storing a value
  under a key that is already there keeps the old key object and replaces the value.

Both carry the distinctness of their keys as a field. A keying is `Strict` when it
separates different keys; then `KSet` is a finite set (`KSet.toFinset`).
-/

namespace Gwems

/-- How a collection tells its keys apart (`same`, an equivalence) and where it puts a new
key (`before x y` puts `x` in front of `y`). -/
structure Keying (α : Type*) where
  same : α → α → Bool
  before : α → α → Bool
  same_refl : ∀ x, same x x = true
  same_symm : ∀ {x y}, same x y = true → same y x = true
  same_trans : ∀ {x y z}, same x y = true → same y z = true → same x z = true

namespace Keying

variable {α : Type*}

/-- Keys told apart by equality, in no particular order. -/
def byEquals [DecidableEq α] : Keying α where
  same x y := decide (x = y)
  before _ _ := true
  same_refl _ := decide_eq_true rfl
  same_symm h := decide_eq_true (of_decide_eq_true h).symm
  same_trans h h' := decide_eq_true ((of_decide_eq_true h).trans (of_decide_eq_true h'))

/-- Keys told apart, and listed in order, by a comparison. -/
def byCompare [Ord α] [Std.TransOrd α] : Keying α where
  same x y := (compare x y).isEq
  before x y := (compare x y).isLE
  same_refl _ := by simp
  same_symm h := by simpa [Ordering.isEq_iff_eq_eq, Std.OrientedCmp.eq_comm] using h
  same_trans {x y z} h h' := by
    simp only [Ordering.isEq_iff_eq_eq] at h h' ⊢
    exact Std.TransCmp.eq_trans h h'

/-- A keying that separates different keys. -/
def Strict (k : Keying α) : Prop := ∀ x y, k.same x y = true → x = y

theorem byEquals_same [DecidableEq α] {x y : α} :
    (byEquals : Keying α).same x y = true ↔ x = y := decide_eq_true_iff

theorem strict_byEquals [DecidableEq α] : (byEquals : Keying α).Strict :=
  fun _ _ h => byEquals_same.mp h

/-- A comparison that is consistent with equality is a strict keying. -/
theorem strict_byCompare [Ord α] [Std.TransOrd α] [Std.LawfulEqOrd α] :
    (byCompare : Keying α).Strict := fun _ _ h => by
  simpa [byCompare, Ordering.isEq_iff_eq_eq] using h

variable {k : Keying α} {x y z : α}

theorem same_comm : k.same x y = k.same y x :=
  Bool.eq_iff_iff.mpr ⟨k.same_symm, k.same_symm⟩

/-- Keys that are the same are told apart from the same keys. -/
theorem same_congr_left (h : k.same x y = true) : k.same x z = k.same y z :=
  Bool.eq_iff_iff.mpr ⟨k.same_trans (k.same_symm h), k.same_trans h⟩

theorem Strict.same_iff (hk : k.Strict) : k.same x y = true ↔ x = y :=
  ⟨hk x y, fun h => h ▸ k.same_refl x⟩

end Keying

/-! ### Sets -/

/-- A finite set of elements told apart by a keying. -/
structure KSet {α : Type*} (k : Keying α) where
  elems : List α
  distinct : elems.Pairwise fun x y => k.same x y = false

namespace KSet

variable {α : Type*} {k k' : Keying α} {x y : α}

instance : Membership α (KSet k) := ⟨fun s x => x ∈ s.elems⟩

theorem mem_def {s : KSet k} : x ∈ s ↔ x ∈ s.elems := Iff.rfl

instance [DecidableEq α] (x : α) (s : KSet k) : Decidable (x ∈ s) :=
  inferInstanceAs (Decidable (x ∈ s.elems))

/-- The empty set. -/
def empty : KSet k := ⟨[], .nil⟩

instance : EmptyCollection (KSet k) := ⟨empty⟩

/-- Whether some element has the key of `x`. -/
def contains (s : KSet k) (x : α) : Bool := s.elems.any (k.same x)

/-- The number of elements. -/
def size (s : KSet k) : ℕ := s.elems.length

/-- Whether the set has no element. -/
def isEmpty (s : KSet k) : Bool := s.elems.isEmpty

theorem contains_iff {s : KSet k} : s.contains x = true ↔ ∃ y ∈ s, k.same x y = true := by
  simp [contains, List.any_eq_true, mem_def]

theorem contains_eq_false {s : KSet k} :
    s.contains x = false ↔ ∀ y ∈ s, k.same x y = false := by
  simp [contains, List.any_eq_false, mem_def]

/-- Add an element, unless one with its key is already there. -/
def add (s : KSet k) (x : α) : KSet k :=
  if h : s.contains x = true then s
  else
    { elems := s.elems.orderedInsert (fun a b => k.before a b = true) x
      distinct := by
        have hx : ∀ y ∈ s.elems, k.same x y = false :=
          contains_eq_false.mp (Bool.not_eq_true _ ▸ h)
        have hsymm : ∀ {a b}, k.same a b = false → k.same b a = false := fun h => by
          rw [Keying.same_comm, h]
        exact (List.perm_orderedInsert _ x s.elems).symm.pairwise
          (List.pairwise_cons.mpr ⟨hx, s.distinct⟩) hsymm }

/-- Remove whatever element has the key of `x`. -/
def remove (s : KSet k) (x : α) : KSet k where
  elems := s.elems.filter fun y => !k.same x y
  distinct := s.distinct.filter _

/-- The set of the elements of a list, added one after another. -/
def ofList (l : List α) : KSet k := l.foldl add ∅

@[simp] theorem not_mem_empty : x ∉ (∅ : KSet k) := List.not_mem_nil

theorem mem_add {s : KSet k} :
    y ∈ s.add x ↔ y ∈ s ∨ s.contains x = false ∧ y = x := by
  rw [add]
  split
  next h => simp [h]
  next h =>
    have h' : s.contains x = false := Bool.not_eq_true _ ▸ h
    simp only [mem_def, List.mem_orderedInsert, h', true_and]
    exact or_comm

theorem mem_remove {s : KSet k} : y ∈ s.remove x ↔ y ∈ s ∧ k.same x y = false := by
  simp [remove, mem_def, List.mem_filter]

theorem isEmpty_iff {s : KSet k} : s.isEmpty = true ↔ ∀ x, x ∉ s := by
  simp [isEmpty, mem_def, List.eq_nil_iff_forall_not_mem]

theorem isEmpty_eq_false_iff {s : KSet k} : s.isEmpty = false ↔ ∃ x, x ∈ s := by
  rw [← Bool.not_eq_true, isEmpty_iff]
  push Not
  rfl

theorem size_eq_zero_iff {s : KSet k} : s.size = 0 ↔ s.isEmpty = true := by
  simp [size, isEmpty]

/-- Adding keeps what was there. -/
theorem mem_add_of_mem {s : KSet k} (h : y ∈ s) : y ∈ s.add x := mem_add.mpr (.inl h)

theorem nodup (s : KSet k) : s.elems.Nodup :=
  s.distinct.imp fun h heq => by simp [heq, k.same_refl] at h

theorem contains_of_mem {s : KSet k} (h : x ∈ s) : s.contains x = true :=
  contains_iff.mpr ⟨x, h, k.same_refl x⟩

/-- After an addition, some element has the added key. -/
theorem contains_add_self (s : KSet k) (x : α) : (s.add x).contains x = true := by
  by_cases h : s.contains x = true
  · obtain ⟨y, hy, hxy⟩ := contains_iff.mp h
    exact contains_iff.mpr ⟨y, mem_add_of_mem hy, hxy⟩
  · exact contains_of_mem (mem_add.mpr (.inr ⟨Bool.not_eq_true _ ▸ h, rfl⟩))

theorem mem_foldl_add_of_distinct {l : List α} {s : KSet k}
    (hl : l.Pairwise fun x y => k.same x y = false)
    (hs : ∀ x ∈ s, ∀ z ∈ l, k.same x z = false) :
    y ∈ l.foldl add s ↔ y ∈ s ∨ y ∈ l := by
  induction l generalizing s with
  | nil => simp
  | cons x l ih =>
    obtain ⟨hx, hl⟩ := List.pairwise_cons.mp hl
    have hsx : s.contains x = false := contains_eq_false.mpr fun z hz => by
      rw [Keying.same_comm]
      exact hs z hz x List.mem_cons_self
    have hadd : ∀ {z}, z ∈ s.add x ↔ z ∈ s ∨ z = x := fun {z} => by
      rw [mem_add, hsx]
      exact or_congr_right (and_iff_right rfl)
    rw [List.foldl_cons, ih hl, hadd, List.mem_cons, or_assoc]
    intro z hz w hw
    rcases hadd.mp hz with hz | rfl
    · exact hs z hz w (List.mem_cons_of_mem x hw)
    · exact hx w hw

/-- A copy has the elements of the original. -/
theorem mem_ofList_elems {s : KSet k} : y ∈ (ofList s.elems : KSet k) ↔ y ∈ s := by
  rw [ofList, mem_foldl_add_of_distinct s.distinct fun x hx => absurd hx not_mem_empty]
  exact or_iff_right not_mem_empty

/-! ### Sets with a strict keying -/

section Strict

variable (hk : k.Strict)
include hk

theorem contains_iff_mem {s : KSet k} : s.contains x = true ↔ x ∈ s := by
  refine ⟨fun h => ?_, contains_of_mem⟩
  obtain ⟨y, hy, hxy⟩ := contains_iff.mp h
  exact hk x y hxy ▸ hy

theorem mem_add_strict {s : KSet k} : y ∈ s.add x ↔ y ∈ s ∨ y = x := by
  rw [mem_add]
  refine ⟨fun h => h.imp_right And.right, ?_⟩
  rintro (h | rfl)
  · exact .inl h
  · rcases hc : s.contains y with _ | _
    · exact .inr ⟨rfl, rfl⟩
    · exact .inl ((contains_iff_mem hk).mp hc)

theorem mem_foldl_add {l : List α} {s : KSet k} : y ∈ l.foldl add s ↔ y ∈ s ∨ y ∈ l := by
  induction l generalizing s with
  | nil => simp
  | cons x l ih =>
    rw [List.foldl_cons, ih, mem_add_strict hk, List.mem_cons, or_assoc]

theorem mem_ofList {l : List α} : y ∈ (ofList l : KSet k) ↔ y ∈ l := by
  rw [ofList, mem_foldl_add hk]
  exact or_iff_right not_mem_empty

end Strict

/-- The elements as a `Finset`. -/
def toFinset [DecidableEq α] (s : KSet k) : Finset α := ⟨s.elems, s.nodup⟩

@[simp] theorem mem_toFinset [DecidableEq α] {s : KSet k} : x ∈ s.toFinset ↔ x ∈ s := Iff.rfl

@[simp] theorem card_toFinset [DecidableEq α] (s : KSet k) : s.toFinset.card = s.size := rfl

end KSet

/-! ### Maps -/

/-- A finite map whose keys are told apart by a keying. -/
structure KMap {κ : Type*} (k : Keying κ) (ν : Type*) where
  entries : List (κ × ν)
  distinct : entries.Pairwise fun a b => k.same a.1 b.1 = false

namespace KMap

variable {κ ν : Type*} {k : Keying κ} {a b : κ} {v : ν}

/-- The empty map. -/
def empty : KMap k ν := ⟨[], .nil⟩

instance : EmptyCollection (KMap k ν) := ⟨empty⟩

/-- The value stored under the key of `a`. -/
def get? (m : KMap k ν) (a : κ) : Option ν :=
  (m.entries.find? fun e => k.same a e.1).map Prod.snd

/-- The key objects, each one time. -/
def keys (m : KMap k ν) : List κ := m.entries.map Prod.fst

/-- Remove whatever entry has the key of `a`. -/
def remove (m : KMap k ν) (a : κ) : KMap k ν where
  entries := m.entries.filter fun e => !k.same a e.1
  distinct := m.distinct.filter _

theorem get?_eq_none_iff {m : KMap k ν} :
    m.get? a = none ↔ ∀ e ∈ m.entries, k.same a e.1 = false := by
  simp [get?, List.find?_eq_none]

/-- The lookup finds the one entry with the key asked for. -/
theorem get?_eq_some_iff {m : KMap k ν} :
    m.get? a = some v ↔ ∃ b, (b, v) ∈ m.entries ∧ k.same a b = true := by
  constructor
  · intro h
    obtain ⟨e, he, rfl⟩ := Option.map_eq_some_iff.mp h
    exact ⟨e.1, List.mem_of_find?_eq_some he, by simpa using List.find?_some he⟩
  · rintro ⟨b, hb, hab⟩
    cases hf : m.entries.find? fun e => k.same a e.1 with
    | none => simpa [hab] using List.find?_eq_none.mp hf (b, v) hb
    | some e =>
      -- the entry found and the entry given share a key, so they are one entry
      have hae : k.same a e.1 = true := by simpa using List.find?_some hf
      have heq : e = (b, v) := by
        by_contra hne
        have : Std.Symm fun e f : κ × ν => k.same e.1 f.1 = false :=
          ⟨fun _ _ hs => by rw [Keying.same_comm, hs]⟩
        have hsame : k.same e.1 b = false :=
          m.distinct.forall (List.mem_of_find?_eq_some hf) hb hne
        simp [← Keying.same_congr_left hae, hab] at hsame
      simp [get?, hf, heq]

theorem get?_isSome_iff {m : KMap k ν} :
    (m.get? a).isSome = true ↔ ∃ e ∈ m.entries, k.same a e.1 = true := by
  simp [get?]

/-- Equal keys look up the same value. -/
theorem get?_congr {m : KMap k ν} (h : k.same a b = true) : m.get? a = m.get? b := by
  simp [get?, Keying.same_congr_left h]

@[simp] theorem get?_empty : (∅ : KMap k ν).get? a = none := rfl

/-- Store a value: replace the value of the entry that has the key of `a`, or make a new
entry. -/
def put (m : KMap k ν) (a : κ) (v : ν) : KMap k ν :=
  if h : (m.get? a).isSome then
    { entries := m.entries.map fun e => (e.1, if k.same a e.1 then v else e.2)
      distinct := List.pairwise_map.mpr m.distinct }
  else
    { entries := m.entries.orderedInsert (fun e f => k.before e.1 f.1 = true) (a, v)
      distinct := by
        have ha : ∀ e ∈ m.entries, k.same a e.1 = false :=
          get?_eq_none_iff.mp (by simpa using h)
        exact (List.perm_orderedInsert _ (a, v) m.entries).symm.pairwise
          (List.pairwise_cons.mpr ⟨ha, m.distinct⟩) fun hs => by rw [Keying.same_comm, hs] }

theorem mem_entries_put {m : KMap k ν} {e : κ × ν} (h : (m.get? a).isSome = true) :
    e ∈ (m.put a v).entries ↔
      ∃ w, (e.1, w) ∈ m.entries ∧ e.2 = if k.same a e.1 then v else w := by
  simp only [put, h, dite_true, List.mem_map, Prod.exists]
  constructor
  · rintro ⟨b, w, hb, rfl⟩
    exact ⟨w, hb, rfl⟩
  · rintro ⟨w, hb, hw⟩
    exact ⟨e.1, w, hb, Prod.ext rfl hw.symm⟩

theorem mem_entries_put_of_none {m : KMap k ν} {e : κ × ν} (h : (m.get? a).isSome = false) :
    e ∈ (m.put a v).entries ↔ e = (a, v) ∨ e ∈ m.entries := by
  simp [put, h]

theorem get?_put_self (m : KMap k ν) (h : k.same b a = true) : (m.put a v).get? b = some v := by
  rw [get?_eq_some_iff]
  by_cases hs : (m.get? a).isSome = true
  · obtain ⟨e, he, hae⟩ := get?_isSome_iff.mp hs
    exact ⟨e.1, (mem_entries_put hs).mpr ⟨e.2, he, by simp [hae]⟩, k.same_trans h hae⟩
  · exact ⟨a, (mem_entries_put_of_none (by simpa using hs)).mpr (.inl rfl), h⟩

theorem get?_put_of_not_same (m : KMap k ν) (h : k.same b a = false) :
    (m.put a v).get? b = m.get? b := by
  -- an entry with the key of `b` does not have the key of `a`
  have hne : ∀ {c}, k.same b c = true → k.same a c = false := fun {c} hbc => by
    rw [← Bool.not_eq_true]
    intro hac
    simp [k.same_trans hbc (k.same_symm hac)] at h
  ext w
  rw [get?_eq_some_iff, get?_eq_some_iff]
  refine exists_congr fun c => and_congr_left fun hbc => ?_
  by_cases hs : (m.get? a).isSome = true
  · rw [mem_entries_put hs]
    simp [hne hbc]
  · rw [mem_entries_put_of_none (by simpa using hs)]
    refine or_iff_right fun heq => ?_
    obtain ⟨rfl, -⟩ := Prod.mk.injEq _ _ _ _ ▸ heq
    simp [h] at hbc

/-- What a lookup finds after a value was stored. -/
theorem get?_put (m : KMap k ν) (a : κ) (v : ν) (b : κ) :
    (m.put a v).get? b = if k.same b a then some v else m.get? b := by
  split
  next h => exact get?_put_self m h
  next h => exact get?_put_of_not_same m (Bool.not_eq_true _ ▸ h)

/-- What a lookup finds after a key was removed. -/
theorem get?_remove (m : KMap k ν) (a b : κ) :
    (m.remove a).get? b = if k.same b a then none else m.get? b := by
  split
  next h =>
    refine get?_eq_none_iff.mpr fun e he => ?_
    have hae : k.same a e.1 = false := by simpa using (List.mem_filter.mp he).2
    rwa [Keying.same_congr_left h]
  next h =>
    ext w
    rw [get?_eq_some_iff, get?_eq_some_iff]
    refine exists_congr fun c => and_congr_left fun hbc => ?_
    have hac : k.same a c = false := by
      rw [← Bool.not_eq_true] at *
      exact fun hac => h (k.same_trans hbc (k.same_symm hac))
    simp [remove, List.mem_filter, hac]

theorem isSome_get?_of_mem_keys {m : KMap k ν} (h : a ∈ m.keys) : (m.get? a).isSome = true := by
  obtain ⟨e, he, rfl⟩ := List.mem_map.mp h
  exact get?_isSome_iff.mpr ⟨e, he, k.same_refl _⟩

theorem nodup_keys (m : KMap k ν) : m.keys.Nodup :=
  List.pairwise_map.mpr (m.distinct.imp fun h heq => by simp [heq, k.same_refl] at h)

/-- With a strict keying the keys are exactly what a lookup finds. -/
theorem mem_keys_iff (hk : k.Strict) {m : KMap k ν} :
    a ∈ m.keys ↔ (m.get? a).isSome = true := by
  refine ⟨isSome_get?_of_mem_keys, fun h => ?_⟩
  obtain ⟨e, he, hae⟩ := get?_isSome_iff.mp h
  exact List.mem_map.mpr ⟨e, he, (hk _ _ hae).symm⟩

/-! ### Maps of sets

A map whose values are sets is a relation, row by row. Adding to a row makes the row when
there is none; removing the last element of a row drops the row. -/

section Rows

variable {α : Type*} {k' : Keying α} {x : α} {m : KMap k (KSet k')}

/-- The row of a key, empty when there is none. -/
def row (m : KMap k (KSet k')) (a : κ) : KSet k' := (m.get? a).getD ∅

/-- Make the row of `a` if there is none, and add `x` to it if one is given. -/
def addTo (m : KMap k (KSet k')) (a : κ) (x : Option α) : KMap k (KSet k') :=
  m.put a (x.elim (m.row a) (m.row a).add)

/-- Remove `x` from the row of `a`, and drop the row if that leaves it empty; the answer
says whether the row was dropped. -/
def removeFrom (m : KMap k (KSet k')) (a : κ) (x : α) : KMap k (KSet k') × Bool :=
  match m.get? a with
  | none => (m, false)
  | some s => if (s.remove x).isEmpty then (m.remove a, true) else (m.put a (s.remove x), false)

/-- No key has an empty row. -/
def NoEmptyRow (m : KMap k (KSet k')) : Prop := ∀ a s, m.get? a = some s → s.isEmpty = false

theorem row_of_get? {s : KSet k'} (h : m.get? a = some s) : m.row a = s := by simp [row, h]

theorem isSome_get?_of_mem_row (h : x ∈ m.row a) : (m.get? a).isSome = true := by
  cases hg : m.get? a with
  | none => simp [row, hg] at h
  | some s => rfl

theorem row_addTo (m : KMap k (KSet k')) (a : κ) (x : α) (b : κ) :
    (m.addTo a (some x)).row b = if k.same b a then (m.row a).add x else m.row b := by
  rw [row, addTo, get?_put]
  split <;> rfl

theorem row_removeFrom (m : KMap k (KSet k')) (a : κ) (x : α) (b : κ) :
    (m.removeFrom a x).1.row b = if k.same b a then (m.row a).remove x else m.row b := by
  have hempty : ∀ {s : KSet k'}, s.isEmpty = true → s = ∅ := fun {s} hs => by
    obtain ⟨l, hl⟩ := s
    obtain rfl : l = [] := by simpa [KSet.isEmpty] using hs
    rfl
  rw [removeFrom]
  split
  next hg =>
    split
    next h => simp [row, get?_congr h, hg]; rfl
    next h => rfl
  next s hg =>
    rw [row_of_get? hg]
    split
    next he =>
      -- a row that is dropped reads as empty, which it was
      rw [row, get?_remove]
      split
      · exact (hempty he).symm
      · rfl
    next he =>
      rw [row, get?_put]
      split <;> rfl

/-- Making a row without an element changes no row. -/
theorem row_addTo_none (m : KMap k (KSet k')) (a b : κ) : (m.addTo a none).row b = m.row b := by
  rw [row, addTo, get?_put]
  split
  next h =>
    have hrow : m.row a = m.row b := by rw [row, row, get?_congr h]
    exact hrow
  next h => rfl

/-- What is left of a row: nothing, if it is empty. -/
theorem get?_removeFrom_self (m : KMap k (KSet k')) (a : κ) (x : α) :
    (m.removeFrom a x).1.get? a =
      if ((m.row a).remove x).isEmpty then none else some ((m.row a).remove x) := by
  rw [removeFrom]
  split
  next hg =>
    rw [row, hg]
    rfl
  next s hg =>
    rw [row_of_get? hg]
    split
    next => rw [get?_remove, if_pos (k.same_refl a)]
    next => exact get?_put_self m (k.same_refl a)

/-- A row is dropped when it was there and its last element was removed. -/
theorem removeFrom_dropped_iff :
    (m.removeFrom a x).2 = true ↔
      (m.get? a).isSome = true ∧ ((m.row a).remove x).isEmpty = true := by
  rw [removeFrom]
  split
  next hg => simp [hg]
  next s hg =>
    rw [row_of_get? hg, hg]
    split <;> simp_all

theorem NoEmptyRow.empty : (∅ : KMap k (KSet k')).NoEmptyRow := by
  intro a s h
  simp at h

theorem NoEmptyRow.isSome_iff (h : m.NoEmptyRow) :
    (m.get? a).isSome = true ↔ ∃ x, x ∈ m.row a := by
  refine ⟨fun hs => ?_, fun ⟨x, hx⟩ => isSome_get?_of_mem_row hx⟩
  obtain ⟨s, hg⟩ := Option.isSome_iff_exists.mp hs
  rw [row_of_get? hg]
  exact KSet.isEmpty_eq_false_iff.mp (h a s hg)

theorem NoEmptyRow.addTo (h : m.NoEmptyRow) (a : κ) (x : α) :
    (m.addTo a (some x)).NoEmptyRow := by
  intro b s hs
  rw [KMap.addTo, get?_put] at hs
  split at hs
  · obtain rfl : (m.row a).add x = s := by simpa using hs
    obtain ⟨y, hy, -⟩ := KSet.contains_iff.mp (KSet.contains_add_self (m.row a) x)
    exact KSet.isEmpty_eq_false_iff.mpr ⟨y, hy⟩
  · exact h b s hs

theorem NoEmptyRow.removeFrom (h : m.NoEmptyRow) (a : κ) (x : α) :
    (m.removeFrom a x).1.NoEmptyRow := by
  rw [KMap.removeFrom]
  split
  next => exact h
  next s hg =>
    split
    next =>
      intro b t ht
      rw [get?_remove] at ht
      split at ht
      · simp at ht
      · exact h b t ht
    next he =>
      intro b t ht
      rw [get?_put] at ht
      split at ht
      · obtain rfl : s.remove x = t := by simpa using ht
        simpa using he
      · exact h b t ht

end Rows

end KMap

end Gwems
