import Gwems.Util.TwoWayMapping

/-!
# The two-way map refines a finite binary relation

The abstract model is a `Finset` of (item, thing) pairs: `add` inserts a pair, `remove`
erases one, `removeItem` and `removeThing` erase a row and a column. `Represents m R` says
that both maps of `m` hold the pairs of `R` and that no key has an empty set; each operation
keeps it when the collections tell keys apart as equality does (`Collections.Strict`), which
`compareTo` consistent with `equals` gives for all three classes. Through `Represents` every
accessor of the source is a projection of `R` (`Represents.projects`), and whole call
sequences give the answers of the abstract model (`calls_projects`).
-/

namespace Gwems

variable {I T : Type*}

/-! ### The abstract relation -/

namespace PairRelation

variable [DecidableEq I] [DecidableEq T]

/-- The things related to an item. -/
def row (R : Finset (I × T)) (i : I) : Finset T := {p ∈ R | p.1 = i}.image Prod.snd

/-- The items related to a thing. -/
def column (R : Finset (I × T)) (t : T) : Finset I := {p ∈ R | p.2 = t}.image Prod.fst

/-- The items related to something. -/
def items (R : Finset (I × T)) : Finset I := R.image Prod.fst

/-- The things related to something. -/
def things (R : Finset (I × T)) : Finset T := R.image Prod.snd

/-- The item and the thing that are related to nothing once the pair is gone, although they
were related to something before. -/
def orphan (R : Finset (I × T)) (i : I) (t : T) : Orphan I T where
  item := if i ∈ items R ∧ i ∉ items (R.erase (i, t)) then some i else none
  thing := if t ∈ things R ∧ t ∉ things (R.erase (i, t)) then some t else none

variable {R : Finset (I × T)} {i : I} {t : T}

@[simp] theorem mem_row : t ∈ row R i ↔ (i, t) ∈ R := by simp [row]

@[simp] theorem mem_column : i ∈ column R t ↔ (i, t) ∈ R := by simp [column]

omit [DecidableEq T] in
@[simp] theorem mem_items : i ∈ items R ↔ ∃ t, (i, t) ∈ R := by simp [items]

omit [DecidableEq I] in
@[simp] theorem mem_things : t ∈ things R ↔ ∃ i, (i, t) ∈ R := by simp [things]

end PairRelation

/-! ### Representation -/

/-- Collections that tell keys apart exactly as equality does. -/
structure Collections.Strict (c : Collections I T) : Prop where
  items : c.items.Strict
  things : c.things.Strict
  itemSet : c.itemSet.Strict
  thingSet : c.thingSet.Strict

/-- The class `TwoWayMapping` uses strict collections, and the subclasses do if `compareTo` is
consistent with `equals`. -/
theorem Variant.strict_collections [DecidableEq I] [Ord I] [Std.TransOrd I] [DecidableEq T] [Ord T]
    [Std.TransOrd T] (v : Variant)
    (hv : v = .twoWayMapping ∨
      (Keying.byCompare : Keying I).Strict ∧ (Keying.byCompare : Keying T).Strict) :
    (v.collections : Collections I T).Strict := by
  have hI : (Keying.byEquals : Keying I).Strict := Keying.strict_byEquals
  have hT : (Keying.byEquals : Keying T).Strict := Keying.strict_byEquals
  cases v with
  | twoWayMapping => exact ⟨hI, hT, hI, hT⟩
  | twoWayTreeMapping =>
    obtain ⟨hI', hT'⟩ := hv.resolve_left nofun
    exact ⟨hI', hT', hI', hT'⟩
  | halfHashTwoWayMapping =>
    obtain ⟨hI', hT'⟩ := hv.resolve_left nofun
    exact ⟨hI, hT, hI', hT'⟩

/-- With `compareTo` consistent with `equals`, all three classes use strict collections. -/
theorem Variant.collections_strict [DecidableEq I] [Ord I] [Std.TransOrd I]
    [Std.LawfulEqOrd I] [DecidableEq T] [Ord T] [Std.TransOrd T] [Std.LawfulEqOrd T]
    (v : Variant) : (v.collections : Collections I T).Strict :=
  v.strict_collections (.inr ⟨Keying.strict_byCompare, Keying.strict_byCompare⟩)

namespace TwoWayMapping

variable {c : Collections I T} {m : TwoWayMapping c} {R : Finset (I × T)} {i : I} {t : T}

/-- Both maps hold the pairs of `R`, and no key has an empty set. -/
structure Represents (m : TwoWayMapping c) (R : Finset (I × T)) : Prop where
  mem_things_iff : ∀ i t, t ∈ m.things i ↔ (i, t) ∈ R
  mem_items_iff : ∀ i t, i ∈ m.items t ↔ (i, t) ∈ R
  item2things_noEmptyRow : m.item2things.NoEmptyRow
  thing2items_noEmptyRow : m.thing2items.NoEmptyRow

theorem represents_empty : Represents (empty : TwoWayMapping c) ∅ where
  mem_things_iff := by simp
  mem_items_iff := by simp
  item2things_noEmptyRow := .empty
  thing2items_noEmptyRow := .empty

/-- A key of `item2things` is an item related to something. -/
theorem Represents.isSome_get?_item2things [DecidableEq I] (h : m.Represents R) :
    (m.item2things.get? i).isSome = true ↔ i ∈ PairRelation.items R := by
  rw [h.item2things_noEmptyRow.isSome_iff, PairRelation.mem_items]
  exact exists_congr fun t => h.mem_things_iff i t

/-- A key of `thing2items` is a thing related to something. -/
theorem Represents.isSome_get?_thing2items [DecidableEq T] (h : m.Represents R) :
    (m.thing2items.get? t).isSome = true ↔ t ∈ PairRelation.things R := by
  rw [h.thing2items_noEmptyRow.isSome_iff, PairRelation.mem_things]
  exact exists_congr fun i => h.mem_items_iff i t

section Strict

variable [DecidableEq I] [DecidableEq T] (hc : c.Strict)
include hc

theorem Represents.add (h : m.Represents R) (i : I) (t : T) :
    (m.add (some i) (some t)).Represents (insert (i, t) R) where
  mem_things_iff j u := by
    have hmem : (m.things i).contains t = false ↔ (i, t) ∉ R := by
      rw [← Bool.not_eq_true, KSet.contains_iff_mem hc.thingSet, h.mem_things_iff]
    rw [mem_things_add, h.mem_things_iff, hmem, hc.items.same_iff, Finset.mem_insert,
      Prod.mk.injEq]
    by_cases hju : j = i ∧ u = t
    · simp only [hju.1, hju.2]
      tauto
    · tauto
  mem_items_iff j u := by
    have hmem : (m.items t).contains i = false ↔ (i, t) ∉ R := by
      rw [← Bool.not_eq_true, KSet.contains_iff_mem hc.itemSet, h.mem_items_iff]
    rw [mem_items_add, h.mem_items_iff, hmem, hc.things.same_iff, Finset.mem_insert,
      Prod.mk.injEq]
    by_cases hju : j = i ∧ u = t
    · simp only [hju.1, hju.2]
      tauto
    · tauto
  item2things_noEmptyRow := h.item2things_noEmptyRow.addTo i t
  thing2items_noEmptyRow := h.thing2items_noEmptyRow.addTo t i

theorem Represents.remove (h : m.Represents R) (i : I) (t : T) :
    (m.remove i t).1.Represents (R.erase (i, t)) where
  mem_things_iff j u := by
    rw [mem_things_remove, h.mem_things_iff, hc.items.same_iff, hc.thingSet.same_iff,
      Finset.mem_erase, Ne, Prod.mk.injEq, and_comm, eq_comm (a := t)]
  mem_items_iff j u := by
    rw [mem_items_remove, h.mem_items_iff, hc.things.same_iff, hc.itemSet.same_iff,
      Finset.mem_erase, Ne, Prod.mk.injEq, and_comm, and_comm (a := u = t), eq_comm (a := i)]
  item2things_noEmptyRow := h.item2things_noEmptyRow.removeFrom i t
  thing2items_noEmptyRow := h.thing2items_noEmptyRow.removeFrom t i

/-- Removing a list of pairs, one after another. -/
theorem Represents.foldl_remove (h : m.Represents R) (l : List (I × T)) :
    (l.foldl (fun m p => (m.remove p.1 p.2).1) m).Represents {p ∈ R | p ∉ l} := by
  induction l generalizing m R with
  | nil => simpa using h
  | cons p l ih =>
    -- the first pair goes, then the others
    have hfilter : {q ∈ R | q ∉ p :: l} = {q ∈ R.erase p | q ∉ l} := by
      ext q
      simp only [Finset.mem_filter, Finset.mem_erase, List.mem_cons]
      tauto
    rw [hfilter]
    exact ih (h.remove hc p.1 p.2)

theorem Represents.removeItem (h : m.Represents R) (i : I) :
    (m.removeItem i).1.Represents {p ∈ R | p.1 ≠ i} := by
  have hfold := h.foldl_remove hc ((m.removeItem i).2.elems.map fun t => (i, t))
  -- the pairs that are erased are those of the item's row
  have hfilter : {p ∈ R | p ∉ (m.removeItem i).2.elems.map fun t => (i, t)} =
      {p ∈ R | p.1 ≠ i} := by
    refine Finset.filter_congr fun p hp => not_congr ?_
    rw [List.mem_map]
    constructor
    · rintro ⟨t, -, rfl⟩
      rfl
    · rintro rfl
      exact ⟨p.2, mem_removeItem_snd.mpr ((h.mem_things_iff _ _).mpr hp), rfl⟩
  rwa [hfilter, List.foldl_map] at hfold

theorem Represents.removeThing (h : m.Represents R) (t : T) :
    (m.removeThing t).1.Represents {p ∈ R | p.2 ≠ t} := by
  have hfold := h.foldl_remove hc ((m.removeThing t).2.elems.map fun i => (i, t))
  -- and here those of the thing's column
  have hfilter : {p ∈ R | p ∉ (m.removeThing t).2.elems.map fun i => (i, t)} =
      {p ∈ R | p.2 ≠ t} := by
    refine Finset.filter_congr fun p hp => not_congr ?_
    rw [List.mem_map]
    constructor
    · rintro ⟨i, -, rfl⟩
      rfl
    · rintro rfl
      exact ⟨p.1, mem_removeThing_snd.mpr ((h.mem_items_iff _ _).mpr hp), rfl⟩
  rwa [hfilter, List.foldl_map] at hfold

/-! ### The answers -/

/-- The orphan named by `remove` is the abstract one. -/
theorem Represents.orphan (h : m.Represents R) (i : I) (t : T) :
    (m.remove i t).2 = PairRelation.orphan R i t := by
  have h' := h.remove hc i t
  have hrow : (m.item2things.removeFrom i t).2 = true ↔
      i ∈ PairRelation.items R ∧ i ∉ PairRelation.items (R.erase (i, t)) := by
    rw [KMap.removeFrom_dropped_iff, h.isSome_get?_item2things, KSet.isEmpty_iff,
      PairRelation.mem_items (R := R.erase _), not_exists]
    refine and_congr_right fun _ => forall_congr' fun u => ?_
    rw [← h'.mem_things_iff i u, mem_things_remove, KSet.mem_remove]
    simp [things, c.items.same_refl]
  have hcol : (m.thing2items.removeFrom t i).2 = true ↔
      t ∈ PairRelation.things R ∧ t ∉ PairRelation.things (R.erase (i, t)) := by
    rw [KMap.removeFrom_dropped_iff, h.isSome_get?_thing2items, KSet.isEmpty_iff,
      PairRelation.mem_things (R := R.erase _), not_exists]
    refine and_congr_right fun _ => forall_congr' fun j => ?_
    rw [← h'.mem_items_iff j t, mem_items_remove, KSet.mem_remove]
    simp [items, c.things.same_refl]
  simp only [TwoWayMapping.remove, PairRelation.orphan, hrow, hcol]

end Strict

/-! ### The accessors as projections -/

section Accessors

/-- The copies the accessors make have the elements of the stored sets. -/
theorem mem_item2things_get (hc : c.Strict) : t ∈ m.item2things_get i ↔ t ∈ m.things i := by
  rw [item2things_get, things, KMap.row]
  cases m.item2things.get? i with
  | none => rfl
  | some s => exact KSet.mem_ofList hc.thingSet

theorem mem_thing2items_get (hc : c.Strict) : i ∈ m.thing2items_get t ↔ i ∈ m.items t := by
  rw [thing2items_get, items, KMap.row]
  cases m.thing2items.get? t with
  | none => rfl
  | some s => exact KSet.mem_ofList hc.itemSet

theorem item2things_size_eq : m.item2things_size i = (m.things i).size := by
  rw [item2things_size, things, KMap.row]
  cases m.item2things.get? i <;> rfl

theorem thing2items_size_eq : m.thing2items_size t = (m.items t).size := by
  rw [thing2items_size, items, KMap.row]
  cases m.thing2items.get? t <;> rfl

variable [DecidableEq I] [DecidableEq T]

/-- Every accessor is a projection of the relation `R`, and no key maps to an empty set. -/
structure Projects (m : TwoWayMapping c) (R : Finset (I × T)) : Prop where
  item2things_get : ∀ i, (m.item2things_get i).toFinset = PairRelation.row R i
  thing2items_get : ∀ t, (m.thing2items_get t).toFinset = PairRelation.column R t
  item2things_size : ∀ i, m.item2things_size i = (PairRelation.row R i).card
  thing2items_size : ∀ t, m.thing2items_size t = (PairRelation.column R t).card
  item2things_keySet : m.item2things_keySet.toFinset = PairRelation.items R
  thing2items_keySet : m.thing2items_keySet.toFinset = PairRelation.things R
  item2things_count : m.item2things_count = (PairRelation.items R).card
  thing2items_count : m.thing2items_count = (PairRelation.things R).card
  things_ne_empty : ∀ i s, m.item2things.get? i = some s → s.size ≠ 0
  items_ne_empty : ∀ t s, m.thing2items.get? t = some s → s.size ≠ 0

/-- **Representation gives the projections.** -/
theorem Represents.projects (hc : c.Strict) (h : m.Represents R) : m.Projects R := by
  have hrow : ∀ i, (m.things i).toFinset = PairRelation.row R i := fun i => by
    ext t
    rw [KSet.mem_toFinset, PairRelation.mem_row, h.mem_things_iff]
  have hcolumn : ∀ t, (m.items t).toFinset = PairRelation.column R t := fun t => by
    ext i
    rw [KSet.mem_toFinset, PairRelation.mem_column, h.mem_items_iff]
  have hitems : m.item2things.keys.toFinset = PairRelation.items R := by
    ext i
    rw [List.mem_toFinset, KMap.mem_keys_iff hc.items, h.isSome_get?_item2things]
  have hthings : m.thing2items.keys.toFinset = PairRelation.things R := by
    ext t
    rw [List.mem_toFinset, KMap.mem_keys_iff hc.things, h.isSome_get?_thing2items]
  exact
    { item2things_get := fun i => by
        ext t
        rw [← hrow, KSet.mem_toFinset, KSet.mem_toFinset, mem_item2things_get hc]
      thing2items_get := fun t => by
        ext i
        rw [← hcolumn, KSet.mem_toFinset, KSet.mem_toFinset, mem_thing2items_get hc]
      item2things_size := fun i => by rw [← hrow, KSet.card_toFinset, item2things_size_eq]
      thing2items_size := fun t => by rw [← hcolumn, KSet.card_toFinset, thing2items_size_eq]
      item2things_keySet := by
        ext i
        rw [KSet.mem_toFinset, ← hitems, List.mem_toFinset]
        exact KSet.mem_ofList hc.itemSet
      thing2items_keySet := by
        ext t
        rw [KSet.mem_toFinset, ← hthings, List.mem_toFinset]
        exact KSet.mem_ofList hc.thingSet
      item2things_count := by
        rw [← hitems, List.toFinset_card_of_nodup m.item2things.nodup_keys]
        rfl
      thing2items_count := by
        rw [← hthings, List.toFinset_card_of_nodup m.thing2items.nodup_keys]
        rfl
      things_ne_empty := fun i s hs => by
        rw [Ne, KSet.size_eq_zero_iff, h.item2things_noEmptyRow i s hs]
        exact Bool.false_ne_true
      items_ne_empty := fun t s hs => by
        rw [Ne, KSet.size_eq_zero_iff, h.thing2items_noEmptyRow t s hs]
        exact Bool.false_ne_true }

end Accessors

/-! ### Whole call sequences -/

section Calls

variable [DecidableEq I] [DecidableEq T]

/-- The mutating calls of the map, with non-null arguments. -/
inductive Call (I T : Type*)
  | add (item : I) (thing : T)
  | remove (item : I) (thing : T)
  | removeItem (item : I)
  | removeThing (thing : T)

/-- What a call answers: nothing, an orphan, or the deleted partners. -/
inductive Answer (I T : Type*)
  | void
  | orphan (o : Orphan I T)
  | things (s : Finset T)
  | items (s : Finset I)

/-- The map as an object. -/
def object (c : Collections I T) : Object (TwoWayMapping c) (Call I T) (Answer I T) where
  call m
    | .add i t => (m.add (some i) (some t), .void)
    | .remove i t => ((m.remove i t).1, .orphan (m.remove i t).2)
    | .removeItem i => ((m.removeItem i).1, .things (m.removeItem i).2.toFinset)
    | .removeThing t => ((m.removeThing t).1, .items (m.removeThing t).2.toFinset)

/-- The abstract relation as an object: `remove` deletes one pair, `removeItem` and
`removeThing` delete a row and a column and answer exactly the deleted partners. -/
def relationObject : Object (Finset (I × T)) (Call I T) (Answer I T) where
  call R
    | .add i t => (insert (i, t) R, .void)
    | .remove i t => (R.erase (i, t), .orphan (PairRelation.orphan R i t))
    | .removeItem i => ({p ∈ R | p.1 ≠ i}, .things (PairRelation.row R i))
    | .removeThing t => ({p ∈ R | p.2 ≠ t}, .items (PairRelation.column R t))

/-- One call keeps the representation and is answered as by the relation. -/
theorem Represents.call (hc : c.Strict) (h : m.Represents R) (a : Call I T) :
    ((object c).call m a).1.Represents (relationObject.call R a).1 ∧
      ((object c).call m a).2 = (relationObject.call R a).2 := by
  cases a with
  | add i t => exact ⟨h.add hc i t, rfl⟩
  | remove i t => exact ⟨h.remove hc i t, congrArg _ (h.orphan hc i t)⟩
  | removeItem i =>
    refine ⟨h.removeItem hc i, congrArg Answer.things ?_⟩
    ext t
    rw [KSet.mem_toFinset, mem_removeItem_snd, h.mem_things_iff, PairRelation.mem_row]
  | removeThing t =>
    refine ⟨h.removeThing hc t, congrArg Answer.items ?_⟩
    ext i
    rw [KSet.mem_toFinset, mem_removeThing_snd, h.mem_items_iff, PairRelation.mem_column]

end Calls

/-- **The two-way map refines a finite binary relation.** For each of the three classes and
every sequence of calls there is one relation, computed by the same calls on a set of pairs,
such that every accessor is a projection of it, no key maps to an empty set, and every call
was answered as the relation answers it. -/
theorem calls_projects [DecidableEq I] [Ord I] [Std.TransOrd I] [Std.LawfulEqOrd I]
    [DecidableEq T] [Ord T] [Std.TransOrd T] [Std.LawfulEqOrd T] (v : Variant)
    (calls : List (Call I T)) :
    ((object (v.collections : Collections I T)).calls empty calls).1.Projects
        (relationObject.calls ∅ calls).1 ∧
      ((object v.collections).calls empty calls).2 = (relationObject.calls ∅ calls).2 := by
  have hc : (v.collections : Collections I T).Strict := v.collections_strict
  obtain ⟨hrep, hans⟩ := Object.calls_refines (fun a h => h.call hc a)
    (represents_empty (c := (v.collections : Collections I T))) calls
  exact ⟨hrep.projects hc, hans⟩

/-- The refinement at the key types of `Global`, with a row removed and a pair orphaned. -/
theorem calls_projects_nat_string :
    ((object (Variant.halfHashTwoWayMapping.collections : Collections ℕ String)).calls empty
        [.add 1 "a", .add 1 "b", .add 2 "b", .removeItem 1, .remove 2 "b"]).1.Projects
        (relationObject.calls ∅
          [.add 1 "a", .add 1 "b", .add 2 "b", .removeItem 1, .remove 2 "b"]).1 ∧
      ((object Variant.halfHashTwoWayMapping.collections).calls empty
        [.add 1 "a", .add 1 "b", .add 2 "b", .removeItem 1, .remove 2 "b"]).2 =
        (relationObject.calls (∅ : Finset (ℕ × String))
          [.add 1 "a", .add 1 "b", .add 2 "b", .removeItem 1, .remove 2 "b"]).2 :=
  calls_projects .halfHashTwoWayMapping
    [.add 1 "a", .add 1 "b", .add 2 "b", .removeItem 1, .remove 2 "b"]

end TwoWayMapping

end Gwems
