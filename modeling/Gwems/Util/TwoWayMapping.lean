import Gwems.Library.Keyed
import Gwems.Library.Machine

/-!
# `TwoWayMapping`: a map from items to things and back

`org.gwems.util.TwoWayMapping` keeps a relation between items and things twice: a map from
an item to the set of its things, and a map from a thing to the set of its items. The
subclasses `TwoWayTreeMapping` and `HalfHashTwoWayMapping` differ only in the collections
they build the two maps and the sets from, so the model takes these as a parameter, a
`Collections` value: `Keying.byEquals` is what a `HashMap` or `HashSet` goes by (`equals`
and `hashCode`), `Keying.byCompare` what a `TreeMap` or `TreeSet` goes by (`compareTo`).

`add` takes optional arguments, since the source accepts a null item or a null thing there
("it will still init the table"); the other operations take non-null ones.
-/

namespace Gwems

/-- The collections a variant of the map is built from: how the keys of `item2things` and of
`thing2items` are told apart, and the elements of the sets stored in them. -/
structure Collections (I T : Type*) where
  items : Keying I
  things : Keying T
  itemSet : Keying I
  thingSet : Keying T

/-- The answer of `remove`: the item and the thing that lost their last partner. -/
structure Orphan (I T : Type*) where
  item : Option I := none
  thing : Option T := none
deriving DecidableEq

/-- `TwoWayMapping<I, T>` over given collections. -/
structure TwoWayMapping {I T : Type*} (c : Collections I T) where
  item2things : KMap c.items (KSet c.thingSet)
  thing2items : KMap c.things (KSet c.itemSet)

/-- The class `TwoWayMapping` and its two subclasses. -/
inductive Variant
  | twoWayMapping
  | twoWayTreeMapping
  | halfHashTwoWayMapping
deriving DecidableEq

/-- What each class builds its maps and its sets from. -/
def Variant.collections {I T : Type*} [DecidableEq I] [Ord I] [Std.TransOrd I] [DecidableEq T]
    [Ord T] [Std.TransOrd T] : Variant → Collections I T
  | .twoWayMapping => ⟨.byEquals, .byEquals, .byEquals, .byEquals⟩
  | .twoWayTreeMapping => ⟨.byCompare, .byCompare, .byCompare, .byCompare⟩
  | .halfHashTwoWayMapping => ⟨.byEquals, .byEquals, .byCompare, .byCompare⟩

namespace TwoWayMapping

variable {I T : Type*} {c : Collections I T}

/-- The constructors: two empty maps. -/
def empty : TwoWayMapping c := ⟨∅, ∅⟩

/-! ### The operations of the source -/

/-- `thingSetFactory(list)`: a new set with the elements of a collection, or an empty one. -/
def thingSetFactory (list : Option (List T)) : KSet c.thingSet :=
  match list with
  | none => ∅
  | some l => KSet.ofList l

/-- `itemSetFactory(list)`. -/
def itemSetFactory (list : Option (List I)) : KSet c.itemSet :=
  match list with
  | none => ∅
  | some l => KSet.ofList l

/-- `item2things_get(item)`: a copy of the things of an item. -/
def item2things_get (m : TwoWayMapping c) (item : I) : KSet c.thingSet :=
  thingSetFactory (c := c) ((m.item2things.get? item).map KSet.elems)

/-- `item2things_size(item)`: how many things an item has. -/
def item2things_size (m : TwoWayMapping c) (item : I) : ℕ :=
  match m.item2things.get? item with
  | none => 0
  | some tmp => tmp.size

/-- `thing2items_get(thing)`: a copy of the items of a thing. -/
def thing2items_get (m : TwoWayMapping c) (thing : T) : KSet c.itemSet :=
  itemSetFactory (c := c) ((m.thing2items.get? thing).map KSet.elems)

/-- `thing2items_size(thing)`: how many items a thing has. -/
def thing2items_size (m : TwoWayMapping c) (thing : T) : ℕ :=
  match m.thing2items.get? thing with
  | none => 0
  | some tmp => tmp.size

/-- `thing2items_keySet()`: the things that have an entry. -/
def thing2items_keySet (m : TwoWayMapping c) : KSet c.thingSet :=
  thingSetFactory (c := c) (some m.thing2items.keys)

/-- `item2things_keySet()`: the items that have an entry. -/
def item2things_keySet (m : TwoWayMapping c) : KSet c.itemSet :=
  itemSetFactory (c := c) (some m.item2things.keys)

/-- `item2things_size()`: the number of items that have an entry. -/
def item2things_count (m : TwoWayMapping c) : ℕ := m.item2things.keys.length

/-- `thing2items_size()`: the number of things that have an entry. -/
def thing2items_count (m : TwoWayMapping c) : ℕ := m.thing2items.keys.length

/-- `add(item, thing)`; a null item or thing still makes the other side's entry. -/
def add (m : TwoWayMapping c) (item : Option I) (thing : Option T) : TwoWayMapping c where
  item2things := item.elim m.item2things fun i => m.item2things.addTo i thing
  thing2items := thing.elim m.thing2items fun t => m.thing2items.addTo t item

/-- `remove(session, widget)`: take the pair out of both maps; a side whose set gets empty
loses its entry and is named in the `Orphan`. -/
def remove (m : TwoWayMapping c) (session : I) (widget : T) : TwoWayMapping c × Orphan I T :=
  -- each map answers whether it has dropped an entry
  let sessions := m.thing2items.removeFrom widget session
  let widgets := m.item2things.removeFrom session widget
  (⟨widgets.1, sessions.1⟩,
    ⟨if widgets.2 then some session else none, if sessions.2 then some widget else none⟩)

section

variable [DecidableEq I] [DecidableEq T]

/-- `removeThing(thing)`: remove the thing from each of its items; the answer is a `HashSet`
with the items. -/
def removeThing (m : TwoWayMapping c) (thing : T) :
    TwoWayMapping c × KSet (Keying.byEquals : Keying I) :=
  let items : KSet Keying.byEquals := KSet.ofList (m.thing2items.row thing).elems
  (items.elems.foldl (fun m item => (m.remove item thing).1) m, items)

/-- `removeItem(item)`: remove the item from each of its things; the answer is a `HashSet`
with the things. -/
def removeItem (m : TwoWayMapping c) (item : I) :
    TwoWayMapping c × KSet (Keying.byEquals : Keying T) :=
  let things : KSet Keying.byEquals := KSet.ofList (m.item2things.row item).elems
  (things.elems.foldl (fun m thing => (m.remove item thing).1) m, things)

end

/-! ### What the operations do to the rows

`m.things i` and `m.items t` are the sets stored under `i` and `t`, without the copy the
accessors make. Everything else is stated through their membership. -/

/-- The things stored under an item. -/
def things (m : TwoWayMapping c) (i : I) : KSet c.thingSet := m.item2things.row i

/-- The items stored under a thing. -/
def items (m : TwoWayMapping c) (t : T) : KSet c.itemSet := m.thing2items.row t

variable {m : TwoWayMapping c} {i j : I} {t u : T}

@[simp] theorem not_mem_things_empty : u ∉ (empty : TwoWayMapping c).things i :=
  KSet.not_mem_empty

@[simp] theorem not_mem_items_empty : j ∉ (empty : TwoWayMapping c).items t :=
  KSet.not_mem_empty

theorem things_congr (h : c.items.same i j = true) : m.things i = m.things j := by
  rw [things, things, KMap.row, KMap.row, KMap.get?_congr h]

theorem items_congr (h : c.things.same t u = true) : m.items t = m.items u := by
  rw [items, items, KMap.row, KMap.row, KMap.get?_congr h]

theorem mem_things_add :
    u ∈ (m.add (some i) (some t)).things j ↔
      u ∈ m.things j ∨ c.items.same j i = true ∧ (m.things i).contains t = false ∧ u = t := by
  rw [things, add, Option.elim_some, KMap.row_addTo]
  split
  next h => rw [KSet.mem_add, things_congr h]; simp [things, h]
  next h => simp [things, h]

theorem mem_items_add :
    j ∈ (m.add (some i) (some t)).items u ↔
      j ∈ m.items u ∨ c.things.same u t = true ∧ (m.items t).contains i = false ∧ j = i := by
  rw [items, add, Option.elim_some, Option.elim_some, KMap.row_addTo]
  split
  next h => rw [KSet.mem_add, items_congr h]; simp [items, h]
  next h => simp [items, h]

theorem mem_things_remove :
    u ∈ (m.remove i t).1.things j ↔
      u ∈ m.things j ∧ ¬(c.items.same j i = true ∧ c.thingSet.same t u = true) := by
  rw [things, remove, KMap.row_removeFrom]
  split
  next h => rw [KSet.mem_remove, things_congr h]; simp [things, h]
  next h => simp [things, h]

theorem mem_items_remove :
    j ∈ (m.remove i t).1.items u ↔
      j ∈ m.items u ∧ ¬(c.things.same u t = true ∧ c.itemSet.same i j = true) := by
  rw [items, remove, KMap.row_removeFrom]
  split
  next h => rw [KSet.mem_remove, items_congr h]; simp [items, h]
  next h => simp [items, h]

/-- Removing an item from a list of things, one after another. -/
theorem mem_things_foldl_remove {l : List T} :
    u ∈ (l.foldl (fun m t => (m.remove i t).1) m).things j ↔
      u ∈ m.things j ∧ ¬(c.items.same j i = true ∧ ∃ t ∈ l, c.thingSet.same t u = true) := by
  induction l generalizing m with
  | nil => simp
  | cons t l ih =>
    rw [List.foldl_cons, ih, mem_things_remove, and_assoc, ← not_or, ← and_or_left,
      List.exists_mem_cons_iff]

theorem mem_items_foldl_remove {l : List T} :
    j ∈ (l.foldl (fun m t => (m.remove i t).1) m).items u ↔
      j ∈ m.items u ∧ ¬(c.itemSet.same i j = true ∧ ∃ t ∈ l, c.things.same u t = true) := by
  induction l generalizing m with
  | nil => simp
  | cons t l ih =>
    rw [List.foldl_cons, ih, mem_items_remove, and_assoc, ← not_or, and_comm (a := _ = true),
      ← and_or_left, List.exists_mem_cons_iff]

theorem mem_removeThing_snd [DecidableEq I] : j ∈ (m.removeThing t).2 ↔ j ∈ m.items t :=
  KSet.mem_ofList Keying.strict_byEquals

section

variable [DecidableEq T]

theorem mem_removeItem_snd : u ∈ (m.removeItem i).2 ↔ u ∈ m.things i :=
  KSet.mem_ofList Keying.strict_byEquals

theorem mem_things_removeItem :
    u ∈ (m.removeItem i).1.things j ↔ u ∈ m.things j ∧ c.items.same j i = false := by
  rw [removeItem, mem_things_foldl_remove]
  refine and_congr_right fun hu => ?_
  rw [← Bool.not_eq_true, not_iff_not]
  refine ⟨And.left, fun h => ⟨h, u, ?_, c.thingSet.same_refl u⟩⟩
  have hu' : u ∈ m.things i := by rwa [← things_congr h]
  exact (KSet.mem_ofList Keying.strict_byEquals).mpr hu'

theorem mem_items_removeItem :
    j ∈ (m.removeItem i).1.items u ↔
      j ∈ m.items u ∧ ¬(c.itemSet.same i j = true ∧ ∃ t ∈ m.things i, c.things.same u t = true) := by
  rw [removeItem, mem_items_foldl_remove]
  simp only [KSet.mem_ofList Keying.strict_byEquals, ← KSet.mem_def]
  rfl

end

end TwoWayMapping

end Gwems
