import Gwems.Library.Machine
import Gwems.Servers.PubSubTree

/-!
# The pools and the queues of the tree

`Network` takes what is in flight from server to server as a bag. `Traffic` keeps the order that
the code keeps: the commands on a link, the `P2C`s on the `messageQ` of a link's agent and on its
socket, and the `messageQ` of every agent are queues. Between them are the thread pools, in which
every task has a thread of its own:

* the task of `publish` and the one of `LocalSubscriberHandler.handle` are in the pool of their
  server; each reads the subscribers first and then puts its message on one `messageQ` after the
  other;
* the task of `executeChannelMessage` is in the pool of the `Global` that the client of the link has
  for itself; it deserializes the `P2C` and hands it to the handler.

Any task of a pool can make the next step. Nothing in flight is lost.
-/

namespace Gwems

variable {M : Type*} {N : Type*}

/-- A `d.P2C`: a channel and the text of a message. -/
structure P2C where
  c : String
  m : String
deriving DecidableEq

/-- A task of a server's pool: not begun, or in its loop with the agents that are left. -/
inductive Delivery (M : Type*)
  | task (task : Task M)
  | puts (agents : List Agent) (runnable : Queued M)

/-- The servers with their tasks, the queues, and what has been put on each `messageQ`. A pool has
its tasks in the order in which they were given to it. -/
structure Traffic (N M : Type*) where
  /-- The servers; the commands of `thePubSub` are on the link, oldest first. -/
  globals : N → Global M
  /-- The `P2C`s for each server on the `messageQ` of its link's agent and on its socket. -/
  downlink : N → List P2C := fun _ => []
  /-- The tasks of `executeChannelMessage`. -/
  clientPool : N → List P2C := fun _ => []
  pool : N → List (Delivery M) := fun _ => []
  messageQ : N → Agent → List (Queued M) := fun _ _ => []
  /-- The calls of `publish` by sessions so far. The code has no such record; it is read by
  statements only. -/
  published : List (N × String × M) := []

namespace Traffic

variable [DecidableEq N]

/-- A server after a step. -/
def setGlobal (s : Traffic N M) (n : N) (g : Global M) : Traffic N M :=
  { s with globals := Function.update s.globals n g }

/-- The pool of a server after a step. -/
def setPool (s : Traffic N M) (n : N) (pool : List (Delivery M)) : Traffic N M :=
  { s with pool := Function.update s.pool n pool }

/-- A call of `publish` on a server. -/
def publish (s : Traffic N M) (n : N) (channel : String) (runme : M) (except : Option Agent) :
    Traffic N M :=
  let (g, tasks) := (s.globals n).publish channel runme except
  (s.setGlobal n g).setPool n (s.pool n ++ tasks.map .task)

/-- A call of `publish` by a session. -/
def publishBy (s : Traffic N M) (n : N) (channel : String) (runme : M) : Traffic N M :=
  if channel.length = 0 then s
  else { s.publish n channel runme none with published := s.published ++ [(n, channel, runme)] }

/-- The parent of a server takes the next command from its link and runs it. -/
def runCommand (T : PubSubTree N) (s : Traffic N M) (n : N) : Option (Traffic N M) :=
  match T.parent n, (s.globals n).thePubSub with
  | some p, some (cmd :: cmds) =>
    let s' := s.setGlobal n { s.globals n with thePubSub := some cmds }
    match cmd with
    | .pub c m => some (s'.publish p c m (some (T.link n)))
    | .sub _ | .unsub _ => some (s'.setGlobal p ((s'.globals p).receive (T.link n) cmd))
  | _, _ => none

/-- The next `P2C` arrives at a server: `executeChannelMessage`. -/
def runP2C (s : Traffic N M) (n : N) : Option (Traffic N M) :=
  match s.downlink n with
  | p2c :: rest => some
    { s with
      downlink := Function.update s.downlink n rest
      clientPool := Function.update s.clientPool n (s.clientPool n ++ [p2c]) }
  | [] => none

/-- A task of `executeChannelMessage` hands its `P2C` to the handler. -/
def runClient (s : Traffic N M) (n : N) (i : ℕ) : Option (Traffic N M) :=
  (s.clientPool n)[i]?.map fun p2c =>
    let s' := s.setPool n (s.pool n ++ [.task (.handle p2c.c p2c.m)])
    { s' with clientPool := Function.update s.clientPool n ((s.clientPool n).eraseIdx i) }

/-- `agent.messageQ.run(runnable)`. What is for the agent of a link is on its way down. -/
def put (T : PubSubTree N) (s : Traffic N M) (n : N) (runnable : Queued M) (agent : Agent) :
    Traffic N M :=
  { s with
    messageQ := Function.update s.messageQ n
      (Function.update (s.messageQ n) agent (s.messageQ n agent ++ [runnable]))
    downlink := match T.childOf n agent, runnable with
      | some k, .p2c m c => Function.update s.downlink k (s.downlink k ++ [⟨c, m⟩])
      | _, _ => s.downlink }

/-- A task of a server's pool makes its next step. -/
def runPool (T : PubSubTree N) (J : Jackson M) (s : Traffic N M) (n : N) (i : ℕ) :
    Option (Traffic N M) :=
  (s.pool n)[i]?.map fun
  | .task task =>
    match (s.globals n).deliveries J task with
    | (agents, some runnable) => s.setPool n ((s.pool n).set i (.puts agents runnable))
    | (_, none) => s.setPool n ((s.pool n).eraseIdx i)
  | .puts (agent :: agents) runnable =>
    (s.setPool n ((s.pool n).set i (.puts agents runnable))).put T n runnable agent
  | .puts [] _ => s.setPool n ((s.pool n).eraseIdx i)

/-- What can happen next. -/
inductive Action (N M : Type*)
  | call (n : N) (call : SubscriptionCall)
  | publish (n : N) (channel : String) (runme : M)
  | command (n : N)
  | p2c (n : N)
  | client (n : N) (i : ℕ)
  | pool (n : N) (i : ℕ)

end Traffic

namespace PubSubTree

variable [DecidableEq N] (T : PubSubTree N) (J : Jackson M)

/-- The servers and everything between them. -/
def traffic : Machine (Traffic N M) (Traffic.Action N M) where
  step s
    | .call n call => some (s.setGlobal n ((s.globals n).perform call))
    | .publish n channel runme => some (s.publishBy n channel runme)
    | .command n => s.runCommand T n
    | .p2c n => s.runP2C n
    | .client n i => s.runClient n i
    | .pool n i => s.runPool T J n i

/-- The servers after their construction, with the commands of the constructors on the links. -/
def noTraffic : Traffic N M :=
  (T.nodes.flatMap T.constructorCalls).foldl
    (fun s (n, call) => s.setGlobal n ((s.globals n).perform call))
    { globals := fun n =>
        { isPubSub := T.isPubSub n, thePubSub := (T.parent n).map fun _ => [] } }

end PubSubTree

end Gwems
