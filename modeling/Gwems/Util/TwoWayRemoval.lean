import Gwems.Library.Machine
import Gwems.Util.TwoWayRelation

/-!
# Removing a key from a `TwoWayMapping`

`add` takes a null for the item or for the thing, "and it will still init the table": the other one
gets an entry with an empty set. So not every key has a partner, and the two maps represent more
than a relation.

`remove` drops an entry if it finds its set empty, but `removeItem` and `removeThing` call it once
for each element of the set. An entry without elements is not dropped (`erasesItem_iff`). The sets
of the other side are right in any case, since the two maps stay mirror images: `Mirrored`.
-/

namespace Gwems

variable {I T : Type*}

/-- The collections with items and things exchanged. -/
def Collections.swap (c : Collections I T) : Collections T I :=
  ⟨c.things, c.items, c.thingSet, c.itemSet⟩

theorem Collections.Strict.swap {c : Collections I T} (hc : c.Strict) : c.swap.Strict :=
  ⟨hc.things, hc.items, hc.thingSet, hc.itemSet⟩

namespace TwoWayMapping

variable {c : Collections I T} {m m' : TwoWayMapping c} {i j : I} {t u : T}

/-- The map with items and things exchanged. -/
def swap (m : TwoWayMapping c) : TwoWayMapping c.swap := ⟨m.thing2items, m.item2things⟩

section Operations

variable [DecidableEq I] [DecidableEq T]

/-- The operations that change a map. Either argument of `add` can be null. -/
inductive Operation (I T : Type*)
  | add (item : Option I) (thing : Option T)
  | remove (item : I) (thing : T)
  | removeItem (item : I)
  | removeThing (thing : T)

/-- A map on which operations are called in any order. -/
def machine (c : Collections I T) : Machine (TwoWayMapping c) (Operation I T) where
  step m
    | .add item thing => some (m.add item thing)
    | .remove item thing => some (m.remove item thing).1
    | .removeItem item => some (m.removeItem item).1
    | .removeThing thing => some (m.removeThing thing).1

/-- After `removeItem` the item is in the set of no thing, and has no entry. -/
def ErasesItem (m : TwoWayMapping c) (i : I) : Prop :=
  (∀ t, i ∉ (m.removeItem i).1.thing2items_get t) ∧ i ∉ (m.removeItem i).1.item2things_keySet

/-- After `removeThing` the thing is in the set of no item, and has no entry. -/
def ErasesThing (m : TwoWayMapping c) (t : T) : Prop :=
  (∀ i, t ∉ (m.removeThing t).1.item2things_get i) ∧ t ∉ (m.removeThing t).1.thing2items_keySet

omit [DecidableEq T] in
theorem swap_removeThing (m : TwoWayMapping c) (t : T) :
    (m.removeThing t).1.swap = (m.swap.removeItem t).1 :=
  (List.foldl_hom swap fun _ _ => rfl).symm

end Operations

/-! ### Mirror images -/

/-- An item is in the set of a thing exactly if the thing is in the set of the item. -/
def Mirrored (m : TwoWayMapping c) : Prop := ∀ i t, t ∈ m.things i ↔ i ∈ m.items t

theorem Mirrored.swap (h : m.Mirrored) : m.swap.Mirrored := fun t i => (h i t).symm

section Strict

variable (hc : c.Strict)
include hc

theorem mem_things_add_iff (item : Option I) (thing : Option T) :
    u ∈ (m.add item thing).things j ↔ u ∈ m.things j ∨ item = some j ∧ thing = some u := by
  cases item with
  | none => simp [things, add]
  | some i =>
    cases thing with
    | none => simp [things, add, KMap.row_addTo_none]
    | some t =>
      rw [mem_things_add, hc.items.same_iff]
      have hmem : (m.things i).contains t = false ↔ t ∉ m.things i := by
        rw [← Bool.not_eq_true, KSet.contains_iff_mem hc.thingSet]
      grind

theorem mem_items_add_iff (item : Option I) (thing : Option T) :
    j ∈ (m.add item thing).items u ↔ j ∈ m.items u ∨ item = some j ∧ thing = some u := by
  rw [and_comm (a := item = some j)]
  exact mem_things_add_iff (m := m.swap) hc.swap thing item

theorem Mirrored.add (h : m.Mirrored) (item : Option I) (thing : Option T) :
    (m.add item thing).Mirrored := by
  intro i t
  rw [mem_things_add_iff hc, mem_items_add_iff hc, h i t]

theorem Mirrored.remove (h : m.Mirrored) (i : I) (t : T) : (m.remove i t).1.Mirrored := by
  intro j u
  rw [mem_things_remove, mem_items_remove, h j u, hc.items.same_iff, hc.thingSet.same_iff,
    hc.things.same_iff, hc.itemSet.same_iff, eq_comm (a := j), eq_comm (a := t),
    and_comm (a := i = j)]

theorem Mirrored.removeItem [DecidableEq T] (h : m.Mirrored) (i : I) :
    (m.removeItem i).1.Mirrored := by
  rw [TwoWayMapping.removeItem]
  generalize (KSet.ofList (m.item2things.row i).elems : KSet Keying.byEquals).elems = l
  induction l generalizing m with
  | nil => exact h
  | cons t l ih => exact ih (h.remove hc i t)

theorem Mirrored.removeThing [DecidableEq I] [DecidableEq T] (h : m.Mirrored) (t : T) :
    (m.removeThing t).1.Mirrored := by
  have hswap := h.swap.removeItem hc.swap t
  rw [← swap_removeThing] at hswap
  exact hswap.swap

theorem Mirrored.step [DecidableEq I] [DecidableEq T] (h : m.Mirrored) {a : Operation I T}
    (hst : (machine c).step m a = some m') : m'.Mirrored := by
  cases a with
  | add item thing => exact Option.some.inj hst ▸ h.add hc item thing
  | remove item thing => exact Option.some.inj hst ▸ h.remove hc item thing
  | removeItem item => exact Option.some.inj hst ▸ h.removeItem hc item
  | removeThing thing => exact Option.some.inj hst ▸ h.removeThing hc thing

/-- The two maps are mirror images in every run. -/
theorem mirrored_of_reaches [DecidableEq I] [DecidableEq T] (h : (machine c).Reaches empty m) :
    m.Mirrored :=
  h.invariant (I := Mirrored) (fun hm hst => hm.step hc hst) fun i t => by simp

end Strict

/-! ### Entries -/

/-- `remove` leaves no empty entry. -/
theorem isSome_get?_remove :
    ((m.remove i t).1.item2things.get? i).isSome = true ↔ ∃ u, u ∈ (m.remove i t).1.things i := by
  rw [things, TwoWayMapping.remove, KMap.get?_removeFrom_self, KMap.row_removeFrom,
    if_pos (c.items.same_refl i), ← KSet.isEmpty_eq_false_iff]
  split <;> simp_all

theorem isSome_get?_foldl_remove {l : List T} (hl : l ≠ []) :
    ((l.foldl (fun m t => (m.remove i t).1) m).item2things.get? i).isSome = true ↔
      ∃ u, u ∈ (l.foldl (fun m t => (m.remove i t).1) m).things i := by
  induction l generalizing m with
  | nil => exact absurd rfl hl
  | cons t l ih =>
    rw [List.foldl_cons]
    cases l with
    | nil => exact isSome_get?_remove
    | cons t' l => exact ih (List.cons_ne_nil t' l)

/-- **Which entries `removeItem` leaves**: those without elements. -/
theorem isSome_get?_removeItem [DecidableEq T] :
    ((m.removeItem i).1.item2things.get? i).isSome = true ↔
      (m.item2things.get? i).isSome = true ∧ (m.things i).isEmpty = true := by
  have hmem : ∀ u, u ∈ (m.removeItem i).2.elems ↔ u ∈ m.things i := fun u => mem_removeItem_snd
  have hgone : ∀ u, u ∉ (m.removeItem i).1.things i := by
    intro u hu
    have hsame := (mem_things_removeItem.mp hu).2
    rw [c.items.same_refl] at hsame
    cases hsame
  by_cases hl : (m.removeItem i).2.elems = []
  · have hempty : (m.things i).isEmpty = true :=
      KSet.isEmpty_iff.mpr fun u hu => by simpa [hl] using (hmem u).mpr hu
    have hsame : (m.removeItem i).1 = m := congrArg (List.foldl _ m) hl
    rw [hsame, hempty]
    exact (and_iff_left rfl).symm
  · have hsome := isSome_get?_foldl_remove (m := m) (i := i) hl
    refine iff_of_false (fun h => ?_) fun h => ?_
    · obtain ⟨u, hu⟩ := hsome.mp h
      exact hgone u hu
    · obtain ⟨u, hu⟩ := List.exists_mem_of_ne_nil _ hl
      exact KSet.isEmpty_iff.mp h.2 u ((hmem u).mp hu)

theorem mem_item2things_keySet (hc : c.Strict) :
    i ∈ m.item2things_keySet ↔ (m.item2things.get? i).isSome = true :=
  (KSet.mem_ofList hc.itemSet).trans (KMap.mem_keys_iff hc.items)

theorem swap_item2things_size : m.swap.item2things_size t = m.thing2items_size t := by
  rw [item2things_size_eq, thing2items_size_eq]
  rfl

/-- **When `removeItem` erases an item.** -/
theorem Mirrored.erasesItem_iff [DecidableEq T] (hc : c.Strict) (h : m.Mirrored) :
    m.ErasesItem i ↔ (i ∈ m.item2things_keySet → m.item2things_size i ≠ 0) := by
  have hgone : ∀ t, i ∉ (m.removeItem i).1.thing2items_get t := by
    intro t ht
    rw [mem_thing2items_get hc, ← h.removeItem hc i i t, mem_things_removeItem,
      c.items.same_refl] at ht
    cases ht.2
  rw [ErasesItem, and_iff_right hgone, mem_item2things_keySet hc, mem_item2things_keySet hc,
    isSome_get?_removeItem, item2things_size_eq, Ne, KSet.size_eq_zero_iff, not_and]

theorem Mirrored.erasesThing_iff [DecidableEq I] (hc : c.Strict) (h : m.Mirrored) :
    m.ErasesThing t ↔ (t ∈ m.thing2items_keySet → m.thing2items_size t ≠ 0) := by
  have hswap := h.swap.erasesItem_iff hc.swap (i := t)
  rw [ErasesItem, ← swap_removeThing, swap_item2things_size] at hswap
  exact hswap

section Variants

variable [DecidableEq I] [Ord I] [Std.TransOrd I] [DecidableEq T] [Ord T] [Std.TransOrd T]

/-- **Bulk removal.** In every state that operations lead to, `removeItem` erases an item, and
`removeThing` a thing, except where it has an entry without elements. This holds of the class
`TwoWayMapping`, and of the subclasses if `compareTo` is consistent with `equals`. -/
theorem erases_iff (v : Variant)
    (hv : v = .twoWayMapping ∨
      (Keying.byCompare : Keying I).Strict ∧ (Keying.byCompare : Keying T).Strict)
    {m : TwoWayMapping (v.collections : Collections I T)}
    (h : (machine v.collections).Reaches empty m) (i : I) (t : T) :
    (m.ErasesItem i ↔ (i ∈ m.item2things_keySet → m.item2things_size i ≠ 0)) ∧
      (m.ErasesThing t ↔ (t ∈ m.thing2items_keySet → m.thing2items_size t ≠ 0)) := by
  have hc : (v.collections : Collections I T).Strict := v.strict_collections hv
  have hmirrored := mirrored_of_reaches hc h
  exact ⟨hmirrored.erasesItem_iff hc, hmirrored.erasesThing_iff hc⟩

end Variants

/-- A map with an item that has a thing, and one that was added without. -/
theorem erases_iff_null :
    ∃ m : TwoWayMapping (Variant.twoWayMapping.collections : Collections ℕ String),
      (machine _).Reaches empty m ∧ m.ErasesItem 1 ∧ ¬m.ErasesItem 2 ∧ m.ErasesThing "a" := by
  have hreaches : (machine (Variant.twoWayMapping.collections : Collections ℕ String)).Reaches empty
      ((empty.add (some 1) (some "a")).add (some 2) none) :=
    (Machine.Reaches.refl.tail (a := .add (some 1) (some "a")) rfl).tail
      (a := .add (some 2) none) rfl
  obtain ⟨hone, hthing⟩ := erases_iff .twoWayMapping (.inl rfl) hreaches 1 "a"
  have htwo := (erases_iff .twoWayMapping (.inl rfl) hreaches 2 "a").1
  refine ⟨_, hreaches, hone.mpr fun _ => by decide, fun h => htwo.mp h (by decide) (by decide),
    hthing.mpr fun _ => by decide⟩

/-- An item that was added without a thing is still there after `removeItem`. -/
theorem not_forall_erases :
    ¬∀ m : TwoWayMapping (Variant.twoWayMapping.collections : Collections ℕ String),
      (machine _).Reaches empty m → ∀ i t, m.ErasesItem i ∧ m.ErasesThing t := by
  intro h
  obtain ⟨⟨-, hkey⟩, -⟩ := h (empty.add (some 1) none)
    (Machine.Reaches.refl.tail (a := .add (some 1) none) rfl) 1 "a"
  exact hkey (by decide)

end TwoWayMapping

end Gwems
