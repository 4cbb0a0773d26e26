import Gwems.Util.TwoWayMapping

/-!
# Agents and the subscription map

An `org.gwems.agents.Agent` is an object: two agents are equal when they are the same
object (`Agent` has no `equals` of its own), but they are compared by their key string, the
field `hash` that "must be unique!". So the two sides of a `HalfHashTwoWayMapping<Agent,
String>`, the type of `Global.session2channel`, tell agents apart differently: the outer
`HashMap` by identity, the inner `TreeSet`s by key.
-/

namespace Gwems

/-- An agent: the identity of the object and its key. -/
structure Agent where
  id : ℕ
  hash : String
deriving DecidableEq

namespace Agent

/-- `getKey()`. -/
def getKey (a : Agent) : String := a.hash

/-- `compareTo(o)`. -/
def compareTo (a o : Agent) : Ordering := compare a.hash o.hash

instance : Ord Agent := ⟨compareTo⟩

instance : Std.TransOrd Agent := inferInstanceAs (Std.TransCmp (compareOn Agent.hash))

/-- A `TreeSet` of agents identifies the agents with one key. -/
theorem byCompare_same {a b : Agent} :
    (Keying.byCompare : Keying Agent).same a b = true ↔ a.hash = b.hash := by
  rw [← Std.compare_eq_iff_eq (a := a.hash)]
  exact Ordering.isEq_iff_eq_eq

end Agent

/-- The collections of `new HalfHashTwoWayMapping<Agent, String>()`. -/
abbrev sessionCollections : Collections Agent String :=
  Variant.halfHashTwoWayMapping.collections

/-- The type of `Global.session2channel`. -/
abbrev SessionMap := TwoWayMapping sessionCollections

namespace SessionMap

variable {m : SessionMap} {a b : Agent} {c d : String}

/-- `item2things_get(agent)` has the channels stored under the agent. -/
theorem mem_item2things_get : c ∈ m.item2things_get a ↔ c ∈ m.things a := by
  rw [TwoWayMapping.item2things_get, TwoWayMapping.things, KMap.row]
  cases m.item2things.get? a with
  | none => rfl
  | some s => exact KSet.mem_ofList_elems

/-- `thing2items_get(channel)` has the agents stored under the channel. -/
theorem mem_thing2items_get : a ∈ m.thing2items_get c ↔ a ∈ m.items c := by
  rw [TwoWayMapping.thing2items_get, TwoWayMapping.items, KMap.row]
  cases m.thing2items.get? c with
  | none => rfl
  | some s => exact KSet.mem_ofList_elems

private theorem string_same {x y : String} :
    (Keying.byCompare : Keying String).same x y = true ↔ x = y :=
  Keying.strict_byCompare.same_iff

/-- `add` stores the channel under the agent. -/
theorem mem_things_add :
    d ∈ (m.add (some a) (some c)).things b ↔ d ∈ m.things b ∨ b = a ∧ d = c := by
  rw [TwoWayMapping.mem_things_add]
  change _ ∨ Keying.byEquals.same b a = true ∧ _ ↔ _
  rw [Keying.byEquals_same]
  refine ⟨Or.imp_right fun h => ⟨h.1, h.2.2⟩, ?_⟩
  rintro (h | ⟨rfl, rfl⟩)
  · exact .inl h
  · -- a channel that is there already is the same channel
    rcases hd : (m.things b).contains d with _ | _
    · exact .inr ⟨rfl, rfl, rfl⟩
    · exact .inl ((KSet.contains_iff_mem Keying.strict_byCompare).mp hd)

/-- `add` stores the agent under the channel unless an agent with its key is there. -/
theorem mem_items_add :
    b ∈ (m.add (some a) (some c)).items d ↔
      b ∈ m.items d ∨ d = c ∧ b = a ∧ ∀ x ∈ m.items c, x.hash ≠ a.hash := by
  rw [TwoWayMapping.mem_items_add]
  change _ ∨ Keying.byEquals.same d c = true ∧ _ ↔ _
  rw [Keying.byEquals_same, KSet.contains_eq_false]
  have hsame : ∀ x, (Keying.byCompare : Keying Agent).same a x = false ↔ x.hash ≠ a.hash :=
    fun x => by rw [← Bool.not_eq_true, Agent.byCompare_same, ne_comm]
  change _ ∨ _ ∧ (∀ x ∈ m.items c, (Keying.byCompare : Keying Agent).same a x = false) ∧ _ ↔ _
  simp only [hsame]
  tauto

/-- `remove` takes the channel from the agent. -/
theorem mem_things_remove :
    d ∈ (m.remove a c).1.things b ↔ d ∈ m.things b ∧ ¬(b = a ∧ d = c) := by
  rw [TwoWayMapping.mem_things_remove]
  change _ ∧ ¬(Keying.byEquals.same b a = true ∧ Keying.byCompare.same c d = true) ↔ _
  rw [Keying.byEquals_same, string_same, eq_comm (a := c)]

/-- `remove` takes whatever agent has the key from the channel. -/
theorem mem_items_remove :
    b ∈ (m.remove a c).1.items d ↔ b ∈ m.items d ∧ ¬(d = c ∧ b.hash = a.hash) := by
  rw [TwoWayMapping.mem_items_remove]
  change _ ∧ ¬(Keying.byEquals.same d c = true ∧ Keying.byCompare.same a b = true) ↔ _
  rw [Keying.byEquals_same, Agent.byCompare_same, eq_comm (a := a.hash)]

/-- `removeItem` takes all channels from the agent. -/
theorem mem_things_removeItem : d ∈ (m.removeItem a).1.things b ↔ d ∈ m.things b ∧ b ≠ a := by
  rw [TwoWayMapping.mem_things_removeItem]
  change _ ∧ Keying.byEquals.same b a = false ↔ _
  rw [← Bool.not_eq_true, Keying.byEquals_same]

/-- `removeItem` takes whatever agent has the key from each of the agent's channels. -/
theorem mem_items_removeItem :
    b ∈ (m.removeItem a).1.items d ↔ b ∈ m.items d ∧ ¬(b.hash = a.hash ∧ d ∈ m.things a) := by
  rw [TwoWayMapping.mem_items_removeItem]
  change _ ∧ ¬(Keying.byCompare.same a b = true ∧
    ∃ t ∈ m.things a, Keying.byEquals.same d t = true) ↔ _
  simp only [Agent.byCompare_same, Keying.byEquals_same, eq_comm (a := a.hash)]
  simp

/-! ### Channels with a subscriber -/

/-- Some agent is stored under the channel. -/
def Occupied (m : SessionMap) (c : String) : Prop := ∃ a, a ∈ m.items c

theorem not_occupied_iff : ¬m.Occupied c ↔ (m.thing2items_get c).isEmpty = true := by
  rw [KSet.isEmpty_iff]
  simp only [mem_thing2items_get]
  exact not_exists

@[simp] theorem not_occupied_empty : ¬Occupied .empty c := by
  rintro ⟨a, ha⟩
  exact TwoWayMapping.not_mem_items_empty ha

/-- After `add` the channel has a subscriber, whether or not the agent was stored. -/
theorem occupied_add : Occupied (m.add (some a) (some d)) c ↔ m.Occupied c ∨ c = d := by
  constructor
  · rintro ⟨b, hb⟩
    rcases mem_items_add.mp hb with hb | ⟨rfl, -⟩
    · exact .inl ⟨b, hb⟩
    · exact .inr rfl
  · rintro (⟨b, hb⟩ | rfl)
    · exact ⟨b, mem_items_add.mpr (.inl hb)⟩
    · by_cases hkey : ∃ x ∈ m.items c, x.hash = a.hash
      · obtain ⟨x, hx, -⟩ := hkey
        exact ⟨x, mem_items_add.mpr (.inl hx)⟩
      · push Not at hkey
        exact ⟨a, mem_items_add.mpr (.inr ⟨rfl, rfl, hkey⟩)⟩

theorem Occupied.of_remove (h : Occupied (m.remove a d).1 c) : m.Occupied c :=
  h.imp fun _ hb => (mem_items_remove.mp hb).1

theorem Occupied.remove (h : m.Occupied c) (hd : c ≠ d) : Occupied (m.remove a d).1 c :=
  h.imp fun _ hb => mem_items_remove.mpr ⟨hb, fun hcd => hd hcd.1⟩

theorem Occupied.of_removeItem (h : Occupied (m.removeItem a).1 c) : m.Occupied c :=
  h.imp fun _ hb => (mem_items_removeItem.mp hb).1

/-- Removing an agent leaves a subscriber on a channel that is not the agent's or that has a
subscriber with another key. -/
theorem Occupied.removeItem (h : m.Occupied c)
    (hc : c ∉ m.things a ∨ ∃ b ∈ m.items c, b.hash ≠ a.hash) : Occupied (m.removeItem a).1 c := by
  rcases hc with hc | ⟨b, hb, hba⟩
  · exact h.imp fun _ hb => mem_items_removeItem.mpr ⟨hb, fun hcm => hc hcm.2⟩
  · exact ⟨b, mem_items_removeItem.mpr ⟨hb, fun hcm => hba hcm.1⟩⟩

/-! ### What delivery sets hold is listed under the agent -/

/-- Every agent in the delivery set of a channel has the channel among its own. The converse can
fail for agents that share a key. -/
def Linked (m : SessionMap) : Prop := ∀ a c, a ∈ m.items c → c ∈ m.things a

theorem linked_empty : Linked .empty := fun _ _ h => absurd h TwoWayMapping.not_mem_items_empty

theorem Linked.add (h : m.Linked) (a : Agent) (c : String) : Linked (m.add (some a) (some c)) := by
  intro b d hb
  rw [mem_things_add]
  rcases mem_items_add.mp hb with hb | ⟨rfl, rfl, -⟩
  · exact .inl (h b d hb)
  · exact .inr ⟨rfl, rfl⟩

theorem Linked.remove (h : m.Linked) (a : Agent) (c : String) : Linked (m.remove a c).1 := by
  intro b d hb
  obtain ⟨hmem, hne⟩ := mem_items_remove.mp hb
  refine mem_things_remove.mpr ⟨h b d hmem, ?_⟩
  rintro ⟨rfl, rfl⟩
  exact hne ⟨rfl, rfl⟩

theorem Linked.removeItem (h : m.Linked) (a : Agent) : Linked (m.removeItem a).1 := by
  intro b d hb
  obtain ⟨hmem, hne⟩ := mem_items_removeItem.mp hb
  refine mem_things_removeItem.mpr ⟨h b d hmem, ?_⟩
  rintro rfl
  exact hne ⟨rfl, h b d hmem⟩

end SessionMap

end Gwems
