import Gwems.Library.Flight
import Gwems.Library.Tree
import Gwems.Servers.Link

/-!
# The tree of servers

Servers form a tree. A leaf serves the agents that subscribe and publish; an interior server
(`isPubSub`) serves the links of its children, each through a `SessionAgent` of its own. Every
server with a parent has a `GwemsPubSub`, on which its `d.Sub`, `d.Unsub` and `d.Pub` go up and on
which `d.P2C` messages come down.

`Network` is the state of all servers with everything that is in flight between them: commands on
the links, tasks of the executors and `P2C`s on the `messageQ`s of links. The messages are
processed one by one in any order, except that the commands of one link stay in order.
`messageQ` records what has been put on the mailbox of each agent.

Nothing in flight is lost, and what `Jackson` writes it reads back.
-/

namespace Gwems

variable {M : Type*} {N : Type*}

/-- Serialization with faithful round trips. -/
structure Jackson (M : Type*) where
  serialize : M → String
  deserialize : String → Option M
  deserialize_serialize : ∀ m, deserialize (serialize m) = some m

/-! ### One server -/

/-- A task for the executor: the one of `publish`, or the one of `LocalSubscriberHandler.handle`. -/
inductive Task (M : Type*)
  | publish (channel : String) (runme : M) (except : Option Agent)
  | handle (channel : String) (str : String)

/-- What is put on a `messageQ`: a `P2C`, or a `ChannelSubscriberWrapper`. -/
inductive Queued (M : Type*)
  | p2c (m : String) (c : String)
  | wrapper (channel : String) (runme : M)
deriving DecidableEq

/-- `publish(channel, runme, log, except)`: a task for the local subscribers, and a `d.Pub` for the
parent if there is one. Both branches of the source do this; the task tells them apart. -/
def Global.publish (g : Global M) (channel : String) (runme : M) (except : Option Agent) :
    Global M × List (Task M) :=
  if channel.length = 0 then (g, [])
  else (g.enqueue (.pub channel runme), [.publish channel runme except])

/-- The agents a task puts its message on the `messageQ` of, and what it puts there. A pub/sub
server leaves out the agent the message came from ("It already knows"); other servers do not. -/
def Global.deliveries (J : Jackson M) (g : Global M) : Task M → List Agent × Option (Queued M)
  | .publish channel runme except =>
    let agents := (g.subscribers channel).elems
    if g.isPubSub then
      -- `agent != except` compares objects, and `except` is null for a message of a leaf's agent
      (agents.filter fun agent => some agent ≠ except, some (.p2c (J.serialize runme) channel))
    else (agents, some (.wrapper channel runme))
  | .handle channel str =>
    let agents := (g.subscribers channel).elems
    if g.isPubSub then (agents, some (.p2c str channel))
    else (agents, (J.deserialize str).map (.wrapper channel))

/-! ### The tree and its agents -/

/-- A tree of servers. For each server with a parent: the `SessionAgent` that the parent has for its
link, and the `SimpleAgent` it subscribes itself. For each leaf: its other agents. The keys of
agents on one server differ. -/
structure PubSubTree (N : Type*) extends Tree N where
  link : N → Agent
  simple : N → Agent
  agents : N → Set Agent
  key_simple : ∀ n, (simple n).getKey = dummyChannel
  link_inj : ∀ p k k', parent k = some p → parent k' = some p → link k = link k' → k = k'
  hash_inj : ∀ n, Set.InjOn Agent.hash
    {a | (∃ k, parent k = some n ∧ a = link k) ∨ (parent n ≠ none ∧ a = simple n) ∨
      ((∀ k, parent k ≠ some n) ∧ a ∈ agents n)}

namespace PubSubTree

variable (T : PubSubTree N)

/-- The agents on a server. -/
def residents (n : N) : Set Agent :=
  {a | (∃ k, T.parent k = some n ∧ a = T.link k) ∨ (T.parent n ≠ none ∧ a = T.simple n) ∨
    (T.IsLeaf n ∧ a ∈ T.agents n)}

/-- The interior servers are the pub/sub servers. -/
def isPubSub [DecidableEq N] (n : N) : Bool := T.nodes.any fun k => T.parent k = some n

/-- The child behind a link agent. -/
def childOf [DecidableEq N] (n : N) (agent : Agent) : Option N :=
  T.nodes.find? fun k => T.parent k = some n ∧ T.link k = agent

end PubSubTree

/-! ### The network -/

/-- A message in flight: a command on the link of a server, a task for a server's executor, or a
`P2C` on the `messageQ` of an agent of a pub/sub server. -/
inductive InFlight (N M : Type*)
  | command (n : N) (cmd : Command M)
  | task (n : N) (task : Task M)
  | p2c (n : N) (agent : Agent) (c m : String)

/-- The servers, the messages in flight, oldest first, and what has been put on each `messageQ`. -/
structure Network (N M : Type*) where
  globals : N → Global M
  flight : List (InFlight N M) := []
  messageQ : N → Agent → List (Queued M) := fun _ _ => []
  /-- The subscription calls so far, with the server of each. The code has no such record; it is
  read by statements only. -/
  calls : List (N × SubscriptionCall) := []

namespace Network

variable [DecidableEq N]

/-- A server hands its commands to its link: they are in flight. -/
def send (s : Network N M) (n : N) (g : Global M) : Network N M :=
  { s with
    globals := Function.update s.globals n { g with thePubSub := g.thePubSub.map fun _ => [] }
    flight := s.flight ++ (g.thePubSub.getD []).map (.command n) }

/-- A call of `subscribe`, `unsubscribe` or `unsubscribeAgent` on a server. -/
def call (s : Network N M) (n : N) (call : SubscriptionCall) : Network N M :=
  { s.send n ((s.globals n).perform call) with calls := s.calls ++ [(n, call)] }

/-- A call of `publish` on a server. -/
def publish (s : Network N M) (n : N) (channel : String) (runme : M) (except : Option Agent) :
    Network N M :=
  let (g, tasks) := (s.globals n).publish channel runme except
  let s' := s.send n g
  { s' with flight := s'.flight ++ tasks.map (.task n) }

/-- What is in flight after a put: a `P2C` is on its way, a `ChannelSubscriberWrapper` has
arrived. -/
def forwarded (n : N) (agent : Agent) : Queued M → List (InFlight N M)
  | .p2c m c => [.p2c n agent c m]
  | .wrapper _ _ => []

/-- `agent.messageQ.run(runnable)`. -/
def put (s : Network N M) (n : N) (runnable : Queued M) (agent : Agent) : Network N M :=
  { s with
    messageQ := Function.update s.messageQ n
      (Function.update (s.messageQ n) agent (s.messageQ n agent ++ [runnable]))
    flight := s.flight ++ forwarded n agent runnable }

/-- The executor runs a task: the message is put on one `messageQ` after the other. -/
def runTask (J : Jackson M) (s : Network N M) (n : N) (task : Task M) : Network N M :=
  match (s.globals n).deliveries J task with
  | (agents, some runnable) => agents.foldl (fun s agent => s.put n runnable agent) s
  | (_, none) => s

/-- The parent of a link runs a command. -/
def runCommand (T : PubSubTree N) (s : Network N M) (n : N) (cmd : Command M) : Network N M :=
  match T.parent n with
  | some p =>
    match cmd with
    -- the agent of the link is the context of the command, and is left out below
    | .pub c m => s.publish p c m (some (T.link n))
    | .sub _ | .unsub _ => s.send p ((s.globals p).receive (T.link n) cmd)
  | none => s

/-- The runner of a `messageQ` of a pub/sub server runs a `P2C`. A `SessionAgent` writes it to its
socket, and the child hands it to its handler; for another agent nothing is done. -/
def runP2C (T : PubSubTree N) (s : Network N M) (n : N) (agent : Agent) (c m : String) :
    Network N M :=
  match T.childOf n agent with
  | some k => { s with flight := s.flight ++ [.task k (.handle c m)] }
  | none => s

/-- The message is the oldest one in flight of its link, if it is a command. -/
def isNext (s : Network N M) (i : ℕ) : InFlight N M → Bool
  | .command n _ => (s.flight.take i).all fun
    | .command n' _ => n' ≠ n
    | .task _ _ | .p2c _ _ _ _ => true
  | .task _ _ | .p2c _ _ _ _ => true

/-- Process the message at a position. -/
def process (T : PubSubTree N) (J : Jackson M) (s : Network N M) (i : ℕ) : Option (Network N M) :=
  s.flight[i]?.bind fun x =>
    if s.isNext i x then
      -- what a message gives rise to goes behind everything else
      let s' := { s with flight := s.flight.eraseIdx i }
      match x with
      | .command n cmd => some (s'.runCommand T n cmd)
      | .task n task => some (s'.runTask J n task)
      | .p2c n agent c m => some (s'.runP2C T n agent c m)
    else none

/-- What can happen next: a function is called on a server, a message is published there, or a
message in flight is processed. -/
inductive Action (N M : Type*)
  | call (n : N) (call : SubscriptionCall)
  | publish (n : N) (channel : String) (runme : M)
  | process (i : ℕ)

end Network

namespace PubSubTree

variable [DecidableEq N] (T : PubSubTree N) (J : Jackson M)

/-- The network. -/
def machine : Machine (Network N M) (Network.Action N M) where
  step s
    | .call n call => some (s.call n call)
    | .publish n channel runme => some (s.publish n channel runme none)
    | .process i => s.process T J i

/-- The network while messages are only processed. -/
def processing : Machine (Network N M) ℕ where
  step s i := s.process T J i

/-- The calls that the constructors of a server and of its link make: the `SessionAgent` and the
`SimpleAgent` subscribe to their own keys. -/
def constructorCalls (n : N) : List (N × SubscriptionCall) :=
  match T.parent n with
  | some p => [(p, .subscribe (T.link n) (T.link n).getKey),
      (n, .subscribe (T.simple n) (T.simple n).getKey)]
  | none => []

/-- The network after the construction of its servers, with the commands of the constructors in
flight. -/
def start : Network N M :=
  (T.nodes.flatMap T.constructorCalls).foldl (fun s (n, call) => s.call n call)
    { globals := fun n =>
        { isPubSub := T.isPubSub n, thePubSub := (T.parent n).map fun _ => [] } }

/-- The agents of leaves call and publish, and only when everything in flight has been
processed. -/
def Sequential (s : Network N M) : Network.Action N M → Prop
  | .call n call => T.IsLeaf n ∧ call.agent ∈ T.agents n ∧ s.flight = []
  | .publish n _ _ => T.IsLeaf n ∧ s.flight = []
  | .process _ => True

end PubSubTree

end Gwems
