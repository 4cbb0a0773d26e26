import Gwems.Agents.Agent

/-!
# `Global`: subscriptions of one server

The part of `org.gwems.servers.Global` that records who is subscribed to what:
`session2channel`, and the commands that `subscribe`, `unsubscribe` and `unsubscribeAgent`
hand to `thePubSub`, the link to the parent server (`none` for a server without one). Each
function is one atomic step here; `Gwems.Servers.Upstream` takes them apart.

Channels are non-null strings, so of the two tests `channel == null` and
`channel.length() == 0` only the second is left.

The main result of the module is `subscriptions_independent`: the subscriptions of an agent
are not disturbed by other agents, provided no other agent has its key. Keys decide what an
inner `TreeSet` takes for the same agent, and `Agent.hash` "must be unique!".
-/

namespace Gwems

/-- The messages a `GwemsPubSub` sends to the parent: `d.Sub`, `d.Unsub` and `d.Pub`. -/
inductive Command (M : Type*)
  | sub (c : String)
  | unsub (channel : String)
  | pub (c : String) (m : M)
deriving DecidableEq

/-- The subscription state of a server. -/
structure Global (M : Type*) where
  session2channel : SessionMap := .empty
  /-- The commands handed to the link so far, oldest first; `none` without a parent. -/
  thePubSub : Option (List (Command M)) := none
  isPubSub : Bool := false
  subscriptionsRecorded : ℕ := 0
  unsubscriptionsRecorded : ℕ := 0

namespace Global

variable {M : Type*}

/-- Hand a command to the link, if there is one. -/
def enqueue (g : Global M) (cmd : Command M) : Global M :=
  { g with thePubSub := g.thePubSub.map (· ++ [cmd]) }

@[simp] theorem enqueue_session2channel (g : Global M) (cmd : Command M) :
    (g.enqueue cmd).session2channel = g.session2channel := rfl

/-- `subscribe(agent, channel)`: the first local subscriber of a channel subscribes this
server at the parent. -/
def subscribe (g : Global M) (agent : Agent) (channel : String) : Global M :=
  if channel.length = 0 then g
  else
    -- the parent is asked before the agent is recorded
    let agents := g.session2channel.thing2items_get channel
    let g' := if agents.isEmpty then g.enqueue (.sub channel) else g
    { g' with
      subscriptionsRecorded := g.subscriptionsRecorded + 1
      session2channel := g.session2channel.add (some agent) (some channel) }

/-- The end of `unsubscribe` and of each turn of the loop in `unsubscribeAgent`: without a
local subscriber left the server unsubscribes at the parent. -/
def unsubcribeIfEmpty (g : Global M) (channel : String) : Global M :=
  if (g.session2channel.thing2items_get channel).isEmpty then g.enqueue (.unsub channel) else g

/-- `unsubscribe(agent, channel)`. -/
def unsubscribe (g : Global M) (agent : Agent) (channel : String) : Global M :=
  unsubcribeIfEmpty
    { g with
      unsubscriptionsRecorded := g.unsubscriptionsRecorded + 1
      session2channel := (g.session2channel.remove agent channel).1 } channel

/-- `unsubscribeAgent(agent)`: the channels are read before the agent is removed. -/
def unsubscribeAgent (g : Global M) (agent : Agent) : Global M :=
  let channels := g.session2channel.item2things_get agent
  channels.elems.foldl unsubcribeIfEmpty
    { g with
      unsubscriptionsRecorded := g.unsubscriptionsRecorded + 1
      session2channel := (g.session2channel.removeItem agent).1 }

/-- The delivery set of a channel: the agents a message published on it is put on the
`messageQ` of. -/
def subscribers (g : Global M) (channel : String) : KSet sessionCollections.itemSet :=
  g.session2channel.thing2items_get channel

/-- The channels an agent is subscribed to. -/
def channels (g : Global M) (agent : Agent) : KSet sessionCollections.thingSet :=
  g.session2channel.item2things_get agent

variable {g : Global M} {a b : Agent} {c d : String}

@[simp] theorem unsubcribeIfEmpty_session2channel :
    (g.unsubcribeIfEmpty c).session2channel = g.session2channel := by
  rw [unsubcribeIfEmpty]
  split <;> rfl

@[simp] theorem foldl_unsubcribeIfEmpty_session2channel (l : List String) (g : Global M) :
    (l.foldl unsubcribeIfEmpty g).session2channel = g.session2channel := by
  induction l generalizing g with
  | nil => rfl
  | cons c l ih => rw [List.foldl_cons, ih, unsubcribeIfEmpty_session2channel]

/-- The three functions change `session2channel` by `add`, `remove` and `removeItem`. -/
theorem subscribe_session2channel (hc : c.length ≠ 0) :
    (g.subscribe a c).session2channel = g.session2channel.add (some a) (some c) := by
  simp [subscribe, hc]

theorem subscribe_of_length_eq_zero (hc : c.length = 0) : g.subscribe a c = g := by
  simp [subscribe, hc]

theorem unsubscribe_session2channel :
    (g.unsubscribe a c).session2channel = (g.session2channel.remove a c).1 := by
  simp [unsubscribe]

theorem unsubscribeAgent_session2channel :
    (g.unsubscribeAgent a).session2channel = (g.session2channel.removeItem a).1 := by
  simp [unsubscribeAgent]

end Global

/-! ### Call histories -/

/-- A call of one of the three functions. -/
inductive SubscriptionCall
  | subscribe (agent : Agent) (channel : String)
  | unsubscribe (agent : Agent) (channel : String)
  | unsubscribeAgent (agent : Agent)

/-- The agent a call is about. -/
def SubscriptionCall.agent : SubscriptionCall → Agent
  | .subscribe a _ | .unsubscribe a _ | .unsubscribeAgent a => a

/-- Perform a call. -/
def Global.perform {M : Type*} (g : Global M) : SubscriptionCall → Global M
  | .subscribe a c => g.subscribe a c
  | .unsubscribe a c => g.unsubscribe a c
  | .unsubscribeAgent a => g.unsubscribeAgent a

/-! ### Agents with a key of their own -/

namespace SessionMap

/-- The two sides of the map agree on an agent, and no other agent with its key is stored. -/
structure Separate (m : SessionMap) (a : Agent) : Prop where
  converse : ∀ c, c ∈ m.things a ↔ a ∈ m.items c
  sole : ∀ c, ∀ x ∈ m.items c, x.hash = a.hash → x = a

variable {m : SessionMap} {a b : Agent}

theorem separate_empty : Separate .empty a where
  converse := by simp
  sole := by simp

/-- Adding keeps an agent separate if the added agent is that agent or has another key. -/
theorem Separate.add (h : m.Separate a) (hb : b.hash = a.hash → b = a) (c : String) :
    Separate (m.add (some b) (some c)) a where
  converse d := by
    rw [mem_things_add, mem_items_add, h.converse]
    constructor
    · rintro (hmem | ⟨rfl, rfl⟩)
      · exact .inl hmem
      · by_cases hmem : a ∈ m.items d
        · exact .inl hmem
        · -- nobody else there has the key, so that the `TreeSet` takes the agent
          exact .inr ⟨rfl, rfl, fun x hx hxa => hmem (h.sole d x hx hxa ▸ hx)⟩
    · rintro (hmem | ⟨rfl, rfl, -⟩)
      · exact .inl hmem
      · exact .inr ⟨rfl, rfl⟩
  sole d x hx hxa := by
    rcases mem_items_add.mp hx with hx | ⟨-, rfl, -⟩
    · exact h.sole d x hx hxa
    · exact hb hxa

/-- Removing a pair keeps an agent separate if the pair's agent is that agent or has another
key. -/
theorem Separate.remove (h : m.Separate a) (hb : b.hash = a.hash → b = a) (c : String) :
    Separate (m.remove b c).1 a where
  converse d := by
    rw [mem_things_remove, mem_items_remove, h.converse, and_comm (a := a = b)]
    refine and_congr_right fun _ => not_congr (and_congr_right fun _ => ?_)
    exact ⟨fun hab => hab ▸ rfl, fun hab => (hb hab.symm).symm⟩
  sole d x hx := h.sole d x (mem_items_remove.mp hx).1

theorem Separate.removeItem (h : m.Separate a) (hb : b.hash = a.hash → b = a) :
    Separate (m.removeItem b).1 a where
  converse d := by
    rw [mem_things_removeItem, mem_items_removeItem, h.converse]
    refine and_congr_right fun hmem => not_congr ⟨?_, fun hab => (hb hab.1.symm).symm⟩
    rintro rfl
    exact ⟨rfl, (h.converse d).mpr hmem⟩
  sole d x hx := h.sole d x (mem_items_removeItem.mp hx).1

/-- A separate agent that is added is stored under the channel. -/
theorem Separate.mem_items_add_self (h : m.Separate a) (c : String) :
    a ∈ (m.add (some a) (some c)).items c := by
  rw [← (h.add (fun _ => rfl) c).converse, mem_things_add]
  exact .inr ⟨rfl, rfl⟩

end SessionMap

namespace Global

variable {M : Type*} {g : Global M} {a b : Agent}

/-- Every call about the agent itself, or about an agent with another key, keeps it
separate. -/
theorem separate_perform (call : SubscriptionCall) (h : g.session2channel.Separate a)
    (hcall : call.agent.hash = a.hash → call.agent = a) :
    (g.perform call).session2channel.Separate a := by
  cases call with
  | subscribe b c =>
    by_cases hc : c.length = 0
    · rwa [perform, subscribe_of_length_eq_zero hc]
    · rw [perform, subscribe_session2channel hc]
      exact h.add hcall c
  | unsubscribe b c =>
    rw [perform, unsubscribe_session2channel]
    exact h.remove hcall c
  | unsubscribeAgent b =>
    rw [perform, unsubscribeAgent_session2channel]
    exact h.removeItem hcall

/-- The run lemma: an agent stays separate through a history in which no other agent has its
key. -/
theorem separate_foldl_perform {calls : List SubscriptionCall}
    (h : g.session2channel.Separate a)
    (hcalls : ∀ call ∈ calls, call.agent.hash = a.hash → call.agent = a) :
    (calls.foldl perform g).session2channel.Separate a := by
  induction calls generalizing g with
  | nil => exact h
  | cons call calls ih =>
    obtain ⟨hcall, hcalls⟩ := List.forall_mem_cons.mp hcalls
    exact ih (separate_perform call h hcall) hcalls

theorem mem_subscribers {c : String} : a ∈ g.subscribers c ↔ a ∈ g.session2channel.items c :=
  SessionMap.mem_thing2items_get

theorem mem_channels {c : String} : c ∈ g.channels a ↔ c ∈ g.session2channel.things a :=
  SessionMap.mem_item2things_get

/-- **Subscriptions of different agents do not interfere.** After any history of calls from
an empty map, for an agent whose key no other agent of the history has: the two sides of
`session2channel` agree on it, `subscribe` puts it into the delivery set of a (non-empty)
channel, and neither `unsubscribe` nor `unsubscribeAgent` of an agent with another key takes
it out of one. -/
theorem subscriptions_independent (hg : g.session2channel = .empty)
    (calls : List SubscriptionCall)
    (hkey : ∀ call ∈ calls, call.agent.hash = a.hash → call.agent = a) :
    let g' := calls.foldl perform g
    (∀ c, c ∈ g'.channels a ↔ a ∈ g'.subscribers c) ∧
      (∀ c, c.length ≠ 0 → a ∈ (g'.subscribe a c).subscribers c) ∧
      ∀ b, b.hash ≠ a.hash → ∀ c, a ∈ g'.subscribers c →
        (∀ d, a ∈ (g'.unsubscribe b d).subscribers c) ∧
          a ∈ (g'.unsubscribeAgent b).subscribers c := by
  intro g'
  have hsep : g'.session2channel.Separate a :=
    separate_foldl_perform (hg ▸ SessionMap.separate_empty) hkey
  refine ⟨fun c => ?_, fun c hc => ?_, fun b hb c hmem => ⟨fun d => ?_, ?_⟩⟩
  · rw [mem_channels, mem_subscribers]
    exact hsep.converse c
  · rw [mem_subscribers, subscribe_session2channel hc]
    exact hsep.mem_items_add_self c
  · rw [mem_subscribers, unsubscribe_session2channel, SessionMap.mem_items_remove]
    exact ⟨mem_subscribers.mp hmem, fun h => hb h.2.symm⟩
  · rw [mem_subscribers, unsubscribeAgent_session2channel, SessionMap.mem_items_removeItem]
    exact ⟨mem_subscribers.mp hmem, fun h => hb h.1.symm⟩

/-- Two agents with different keys on one channel, one of them unsubscribed again. -/
theorem subscriptions_independent_two_agents :
    let g' := [.subscribe ⟨1, "k1"⟩ "chan", .subscribe ⟨2, "k2"⟩ "chan",
      .unsubscribe ⟨2, "k2"⟩ "chan"].foldl perform ({} : Global Unit)
    (∀ c, c ∈ g'.channels ⟨1, "k1"⟩ ↔ ⟨1, "k1"⟩ ∈ g'.subscribers c) ∧
      (∀ c, c.length ≠ 0 → ⟨1, "k1"⟩ ∈ (g'.subscribe ⟨1, "k1"⟩ c).subscribers c) ∧
      ∀ b, b.hash ≠ "k1" → ∀ c, ⟨1, "k1"⟩ ∈ g'.subscribers c →
        (∀ d, ⟨1, "k1"⟩ ∈ (g'.unsubscribe b d).subscribers c) ∧
          ⟨1, "k1"⟩ ∈ (g'.unsubscribeAgent b).subscribers c :=
  subscriptions_independent rfl _ (by decide)

/-- Two agents with one key interfere: the second one subscribed does not get into the
delivery set although the map lists the channel for it, unsubscribing it takes the first one
out, and so does `unsubscribeAgent`. An empty channel name subscribes nobody. -/
theorem subscriptions_interfere_same_key :
    let a : Agent := ⟨1, "k"⟩
    let b : Agent := ⟨2, "k"⟩
    let g : Global Unit := (({} : Global Unit).subscribe a "chan").subscribe b "chan"
    (a ∈ g.subscribers "chan" ∧ b ∉ g.subscribers "chan" ∧ "chan" ∈ g.channels b) ∧
      a ∉ (g.unsubscribe b "chan").subscribers "chan" ∧
      a ∉ (g.unsubscribeAgent b).subscribers "chan" ∧
      a ∉ (({} : Global Unit).subscribe a "").subscribers "" := by
  decide

end Global

end Gwems
