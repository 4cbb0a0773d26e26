import Gwems.Servers.PubSubTreeSubscriptions

/-!
# Delivery to agents under construction

The constructor of `Agent` subscribes the new agent to its key, and only then the constructor of
the subclass installs the `messageQ` ("We'll need to install the messageQ manually"); a
`WsClientImpl` never does. In between, or for ever, the agent is in delivery sets with a null
`messageQ`.

The task of `publish` takes a snapshot of the delivery set and goes through it in the order of the
keys. On a pub/sub server each turn of the loop is inside a `try`; on the other servers it is not,
so that an agent without a `messageQ` ends the task, and the agents behind it get nothing
(`agent_starved`). `delivered_once_iff` says when an agent gets the message: on a pub/sub server if
the message did not come from it and can be written as a string, whatever the other agents are;
elsewhere exactly if every agent that has its turn before it has a `messageQ` by then.

The snapshot, the turns of the loop and the two halves of a constructor are separate steps here;
the calls on `session2channel` are atomic.
-/

namespace Gwems

variable {M : Type*}

/-! ### The model -/

/-- Where the task of a `publish` is: before its snapshot, in its loop with the agents still to
come, at its end, or ended by an exception. -/
inductive LoopPhase
  | submitted
  | delivering (todo : List Agent)
  | done
  | dead
deriving DecidableEq

/-- The task of a `publish`. -/
structure PublishTask (M : Type*) where
  channel : String
  runme : M
  except : Option Agent
  phase : LoopPhase := .submitted
deriving DecidableEq

/-- A server with its agents. -/
structure DeliveryServer (M : Type*) where
  global : Global M := {}
  /-- The agents that the constructor of `Agent` has made. -/
  agents : List Agent := []
  /-- The `messageQ` of each agent, null at first, then everything that has been put on it, with the
  number of the task that has put it there. -/
  messageQ : Agent → Option (List (ℕ × Queued M)) := fun _ => none
  tasks : List (PublishTask M) := []

namespace DeliveryServer

/-- The constructor of `Agent`, with a key. The subclass is still to install the `messageQ`. -/
def construct (s : DeliveryServer M) (key : String) : DeliveryServer M :=
  let agent : Agent := { id := s.agents.length, hash := key }
  { s with global := s.global.subscribe agent key, agents := s.agents ++ [agent] }

/-- `messageQ = new AgentRunnablesQueue(global, this)`, the rest of the constructors of
`SimpleAgent` and `SessionAgent`. -/
def install (s : DeliveryServer M) (agent : Agent) : DeliveryServer M :=
  { s with messageQ := Function.update s.messageQ agent (some []) }

/-- `publish(channel, runme, log, except)`. -/
def publish (s : DeliveryServer M) (channel : String) (runme : M) (except : Option Agent) :
    DeliveryServer M :=
  if channel.length = 0 then s
  else { s with
    global := (s.global.publish channel runme except).1
    tasks := s.tasks ++ [{ channel := channel, runme := runme, except := except }] }

/-- `agent.messageQ.run(message)` in task `i`; `none` where the `messageQ` is null. -/
def put (s : DeliveryServer M) (i : ℕ) (agent : Agent) (message : Queued M) :
    Option (DeliveryServer M) :=
  (s.messageQ agent).map fun q =>
    { s with messageQ := Function.update s.messageQ agent (some (q ++ [(i, message)])) }

/-- A turn of the loop of a pub/sub server: exceptions, of the serialization too, are logged. -/
def pubSubTurn (s : DeliveryServer M) (serialize : M → Option String) (i : ℕ)
    (task : PublishTask M) (agent : Agent) : DeliveryServer M :=
  if some agent ≠ task.except then
    match serialize task.runme with
    | some strmsg => (s.put i agent (.p2c strmsg task.channel)).getD s
    | none => s
  else s

/-- A turn of the loop of another server. -/
def turn (s : DeliveryServer M) (i : ℕ) (task : PublishTask M) (agent : Agent) :
    Option (DeliveryServer M) :=
  s.put i agent (.wrapper task.channel task.runme)

/-- Change the phase of a task. -/
def setPhase (s : DeliveryServer M) (i : ℕ) (task : PublishTask M) (phase : LoopPhase) :
    DeliveryServer M :=
  { s with tasks := s.tasks.set i { task with phase := phase } }

/-- What can happen next: an agent is constructed, or gets its `messageQ`, a subscription changes,
a message is published, a task takes its snapshot, or goes on in its loop. -/
inductive Action (M : Type*)
  | construct (key : String)
  | install (agent : Agent)
  | call (call : SubscriptionCall)
  | publish (channel : String) (runme : M) (except : Option Agent)
  | snapshot (i : ℕ)
  | deliver (i : ℕ)

/-- Constructors, callers and tasks in any order. `serialize` is `Global.serialize`, and `none`
where that throws. -/
def machine (serialize : M → Option String) : Machine (DeliveryServer M) (Action M) where
  step s
    | .construct key => some (s.construct key)
    | .install agent =>
      if agent ∈ s.agents ∧ s.messageQ agent = none then some (s.install agent) else none
    | .call call => some { s with global := s.global.perform call }
    | .publish channel runme except => some (s.publish channel runme except)
    | .snapshot i =>
      match s.tasks[i]? with
      | some ⟨channel, runme, except, .submitted⟩ =>
        some (s.setPhase i ⟨channel, runme, except, .submitted⟩
          (.delivering (s.global.subscribers channel).elems))
      | _ => none
    | .deliver i =>
      match s.tasks[i]? with
      | some ⟨channel, runme, except, .delivering []⟩ =>
        some (s.setPhase i ⟨channel, runme, except, .delivering []⟩ .done)
      | some ⟨channel, runme, except, .delivering (agent :: todo)⟩ =>
        let task : PublishTask M := ⟨channel, runme, except, .delivering (agent :: todo)⟩
        if s.global.isPubSub then
          some ((s.pubSubTurn serialize i task agent).setPhase i task (.delivering todo))
        else match s.turn i task agent with
          | some s' => some (s'.setPhase i task (.delivering todo))
          -- nobody catches the `NullPointerException`
          | none => some (s.setPhase i task .dead)
      | _ => none

/-- How often a task has put its message on the `messageQ` of an agent. -/
def puts (s : DeliveryServer M) (i : ℕ) (agent : Agent) : ℕ :=
  ((s.messageQ agent).getD []).countP fun entry => entry.1 = i

/-- The task of a publish has ended. -/
def Ended (s : DeliveryServer M) (i : ℕ) : Prop :=
  ∃ task ∈ s.tasks[i]?, task.phase = .done ∨ task.phase = .dead

instance (s : DeliveryServer M) (i : ℕ) : Decidable (s.Ended i) :=
  inferInstanceAs (Decidable (∃ task ∈ s.tasks[i]?, task.phase = .done ∨ task.phase = .dead))

variable {s s' t u : DeliveryServer M} {serialize : M → Option String} {i j : ℕ}
  {agent x : Agent} {task : PublishTask M} {n : ℕ}

/-! ### What is on a `messageQ` -/

/-- The agent has a `messageQ`, on which the task has put its message `n` times. -/
def Holds (s : DeliveryServer M) (i : ℕ) (agent : Agent) (n : ℕ) : Prop :=
  ∃ q, s.messageQ agent = some q ∧ (q.countP fun entry => entry.1 = i) = n

theorem Holds.puts_eq (h : s.Holds i agent n) : s.puts i agent = n := by
  obtain ⟨q, hq, hn⟩ := h
  rw [puts, hq]
  exact hn

theorem put_eq_some {message : Queued M} (h : s.put j x message = some s') :
    ∃ q, s.messageQ x = some q ∧
      s' = { s with messageQ := Function.update s.messageQ x (some (q ++ [(j, message)])) } := by
  obtain ⟨q, hq, rfl⟩ := Option.map_eq_some_iff.mp h
  exact ⟨q, hq, rfl⟩

/-- A message is put on one `messageQ` once. -/
theorem Holds.put (h : s.Holds i agent n) {message : Queued M}
    (hput : s.put j x message = some s') :
    s'.Holds i agent (n + if j = i ∧ x = agent then 1 else 0) := by
  obtain ⟨q, hq, hn⟩ := h
  obtain ⟨q', hq', rfl⟩ := put_eq_some hput
  by_cases hx : x = agent
  · subst hx
    rw [hq, Option.some.injEq] at hq'
    subst hq'
    refine ⟨q ++ [(j, message)], Function.update_self .., ?_⟩
    by_cases hj : j = i
    · simp [hj, hn]
    · simp [hj, hn]
  · refine ⟨q, ?_, by simp [hx, hn]⟩
    change Function.update s.messageQ x _ agent = some q
    rw [Function.update_of_ne (Ne.symm hx), hq]

/-- What a turn on a pub/sub server does: it puts the message on the `messageQ` of the agent, or
nothing. -/
theorem pubSubTurn_cases (s : DeliveryServer M) (serialize : M → Option String) (j : ℕ)
    (task : PublishTask M) (x : Agent) :
    (∃ message s', (some x ≠ task.except ∧ (serialize task.runme).isSome) ∧
      s.put j x message = some s' ∧ s.pubSubTurn serialize j task x = s') ∨
    ((some x ≠ task.except ∧ (serialize task.runme).isSome → s.messageQ x = none) ∧
      s.pubSubTurn serialize j task x = s) := by
  rw [DeliveryServer.pubSubTurn]
  split
  next hne =>
    split
    next strmsg hser =>
      cases hput : s.put j x (.p2c strmsg task.channel) with
      | some s' => exact .inl ⟨_, s', ⟨hne, by rw [hser]; rfl⟩, hput, rfl⟩
      | none => exact .inr ⟨fun _ => Option.map_eq_none_iff.mp hput, rfl⟩
    next hser => exact .inr ⟨fun hand => absurd hand.2 (by rw [hser]; nofun), rfl⟩
  next heq => exact .inr ⟨fun hand => absurd hand.1 heq, rfl⟩

theorem Holds.pubSubTurn (h : s.Holds i agent n) (serialize : M → Option String) (j : ℕ)
    (task : PublishTask M) (x : Agent) :
    (s.pubSubTurn serialize j task x).Holds i agent (n + if j = i ∧ x = agent ∧
      some x ≠ task.except ∧ (serialize task.runme).isSome then 1 else 0) := by
  obtain ⟨message, s', hand, hput, heq⟩ | ⟨hnone, heq⟩ := pubSubTurn_cases s serialize j task x
  · have hholds := h.put hput
    rw [heq]
    simpa only [and_iff_left hand] using hholds
  · -- an agent without a `messageQ` is another one
    have hnot : ¬(j = i ∧ x = agent ∧ some x ≠ task.except ∧ (serialize task.runme).isSome) := by
      rintro ⟨-, rfl, hand⟩
      obtain ⟨q, hq, -⟩ := h
      rw [hnone hand] at hq
      cases hq
    rw [heq, if_neg hnot]
    exact h

theorem put_tasks {message : Queued M} (h : s.put j x message = some s') : s'.tasks = s.tasks := by
  obtain ⟨q, -, rfl⟩ := put_eq_some h
  rfl

theorem put_global {message : Queued M} (h : s.put j x message = some s') :
    s'.global = s.global := by
  obtain ⟨q, -, rfl⟩ := put_eq_some h
  rfl

@[simp] theorem pubSubTurn_tasks (s : DeliveryServer M) (serialize : M → Option String) (j : ℕ)
    (task : PublishTask M) (x : Agent) : (s.pubSubTurn serialize j task x).tasks = s.tasks := by
  obtain ⟨message, s', -, hput, heq⟩ | ⟨-, heq⟩ := pubSubTurn_cases s serialize j task x
  · rw [heq, put_tasks hput]
  · rw [heq]

@[simp] theorem pubSubTurn_global (s : DeliveryServer M) (serialize : M → Option String) (j : ℕ)
    (task : PublishTask M) (x : Agent) : (s.pubSubTurn serialize j task x).global = s.global := by
  obtain ⟨message, s', -, hput, heq⟩ | ⟨-, heq⟩ := pubSubTurn_cases s serialize j task x
  · rw [heq, put_global hput]
  · rw [heq]

/-! ### Steps -/

/-- What a task does when it goes on in its loop. -/
inductive Turns (serialize : M → Option String) (s : DeliveryServer M) (i : ℕ)
    (task : PublishTask M) : DeliveryServer M → Prop
  | ends (hphase : task.phase = .delivering []) : Turns serialize s i task (s.setPhase i task .done)
  | pubSub {agent : Agent} {todo : List Agent} (hphase : task.phase = .delivering (agent :: todo))
      (hpubSub : s.global.isPubSub = true) : Turns serialize s i task
        ((s.pubSubTurn serialize i task agent).setPhase i task (.delivering todo))
  | puts {agent : Agent} {todo : List Agent} {s' : DeliveryServer M}
      (hphase : task.phase = .delivering (agent :: todo)) (hpubSub : s.global.isPubSub = false)
      (hturn : s.turn i task agent = some s') :
      Turns serialize s i task (s'.setPhase i task (.delivering todo))
  | throws {agent : Agent} {todo : List Agent} (hphase : task.phase = .delivering (agent :: todo))
      (hpubSub : s.global.isPubSub = false) (hturn : s.turn i task agent = none) :
      Turns serialize s i task (s.setPhase i task .dead)

/-- The inversion of a turn. -/
theorem deliver_cases (hst : (machine serialize).step s (.deliver i) = some t) :
    ∃ task, s.tasks[i]? = some task ∧ Turns serialize s i task t := by
  simp only [machine] at hst
  split at hst
  next channel runme except hi =>
    cases hst
    exact ⟨_, hi, .ends rfl⟩
  next channel runme except agent todo hi =>
    split at hst
    next hpubSub =>
      cases hst
      exact ⟨_, hi, .pubSub rfl hpubSub⟩
    next hpubSub =>
      have hpubSub := Bool.eq_false_iff.mpr hpubSub
      split at hst
      next s' hturn =>
        cases hst
        exact ⟨_, hi, .puts rfl hpubSub hturn⟩
      next hturn =>
        cases hst
        exact ⟨_, hi, .throws rfl hpubSub hturn⟩
  next => cases hst

theorem setPhase_getElem?_self (hi : s.tasks[i]? = some task) (phase : LoopPhase) :
    (s.setPhase i task phase).tasks[i]? = some { task with phase := phase } :=
  List.getElem?_set_self (List.getElem?_eq_some_iff.mp hi).1

theorem setPhase_getElem?_of_ne (hij : j ≠ i) (phase : LoopPhase) :
    (s.setPhase j task phase).tasks[i]? = s.tasks[i]? :=
  List.getElem?_set_ne hij

/-- The other steps leave a task that is past its snapshot alone, and what it has put. -/
theorem Holds.step (h : s.Holds i agent n) (hi : s.tasks[i]? = some task)
    (hphase : task.phase ≠ .submitted) {a : Action M} (ha : a ≠ .deliver i)
    (hst : (machine serialize).step s a = some t) :
    t.tasks[i]? = some task ∧ t.Holds i agent n := by
  cases a with
  | construct key => cases hst; exact ⟨hi, h⟩
  | install x =>
    simp only [machine] at hst
    split at hst
    next hx =>
      cases hst
      refine ⟨hi, ?_⟩
      obtain ⟨q, hq, hn⟩ := h
      -- the agent has its `messageQ` already
      have hne : agent ≠ x := by
        rintro rfl
        rw [hq] at hx
        cases hx.2
      refine ⟨q, ?_, hn⟩
      change Function.update s.messageQ x (some []) agent = some q
      rw [Function.update_of_ne hne, hq]
    next => cases hst
  | call call => cases hst; exact ⟨hi, h⟩
  | publish channel runme except =>
    cases hst
    rw [DeliveryServer.publish]
    split
    next => exact ⟨hi, h⟩
    next =>
      refine ⟨?_, h⟩
      rw [List.getElem?_append_left (List.getElem?_eq_some_iff.mp hi).1]
      exact hi
  | snapshot j =>
    simp only [machine] at hst
    split at hst
    next channel runme except hj =>
      cases hst
      have hij : j ≠ i := by
        rintro rfl
        rw [hi, Option.some.injEq] at hj
        rw [hj] at hphase
        exact hphase rfl
      exact ⟨(setPhase_getElem?_of_ne hij _).trans hi, h⟩
    next => cases hst
  | deliver j =>
    have hij : j ≠ i := by
      rintro rfl
      exact ha rfl
    have hnone : ∀ {P : Prop}, ¬(j = i ∧ P) := fun hand => hij hand.1
    obtain ⟨task', hj, hturns⟩ := deliver_cases hst
    cases hturns with
    | ends => exact ⟨(setPhase_getElem?_of_ne hij _).trans hi, h⟩
    | @pubSub x todo =>
      have hholds := h.pubSubTurn serialize j task' x
      have htasks : (s.pubSubTurn serialize j task' x).tasks[i]? = some task := by
        rwa [pubSubTurn_tasks]
      rw [if_neg hnone] at hholds
      exact ⟨(setPhase_getElem?_of_ne hij _).trans htasks, hholds⟩
    | puts _ _ hturn =>
      have hholds := h.put hturn
      rw [if_neg hnone] at hholds
      rw [← put_tasks hturn] at hi
      exact ⟨(setPhase_getElem?_of_ne hij _).trans hi, hholds⟩
    | throws => exact ⟨(setPhase_getElem?_of_ne hij _).trans hi, h⟩

/-- A server is a pub/sub server or not for all its life. -/
theorem isPubSub_step {a : Action M} (hst : (machine serialize).step s a = some t) :
    t.global.isPubSub = s.global.isPubSub := by
  cases a with
  | construct key => cases hst; exact Global.perform_isPubSub (.subscribe _ key)
  | install x =>
    simp only [machine] at hst
    split at hst
    next => cases hst; rfl
    next => cases hst
  | call call => cases hst; exact Global.perform_isPubSub call
  | publish channel runme except =>
    cases hst
    rw [DeliveryServer.publish, Global.publish]
    split
    next => rfl
    next => rfl
  | snapshot j =>
    simp only [machine] at hst
    split at hst
    next => cases hst; rfl
    next => cases hst
  | deliver j =>
    obtain ⟨task, -, hturns⟩ := deliver_cases hst
    cases hturns with
    | ends => rfl
    | pubSub => exact congrArg Global.isPubSub (pubSubTurn_global ..)
    | puts _ _ hturn =>
      have hsame := put_global hturn
      exact congrArg Global.isPubSub hsame
    | throws => rfl

/-! ### One agent in the loop -/

/-- The agent is still to come in the loop of task `i`. -/
structure Awaiting (s : DeliveryServer M) (i : ℕ) (runme : M) (except : Option Agent)
    (agent : Agent) : Prop where
  task : ∃ channel todo, s.tasks[i]? = some ⟨channel, runme, except, .delivering todo⟩ ∧
    todo.Nodup ∧ agent ∈ todo
  holds : s.Holds i agent 0

/-- The loop of task `i` is past the agent, or has ended. -/
structure Settled (s : DeliveryServer M) (i : ℕ) (agent : Agent) (n : ℕ) : Prop where
  task : ∃ task, s.tasks[i]? = some task ∧ task.phase ≠ .submitted ∧
    ∀ todo, task.phase = .delivering todo → agent ∉ todo
  holds : s.Holds i agent n

/-- As long as the agent is to come, the agents that have their turn have a `messageQ`. -/
def Unblocked (i : ℕ) (agent : Agent) (s : DeliveryServer M) : Action M → Prop
  | .deliver j => j = i → ∀ task ∈ s.tasks[i]?, ∀ x todo, task.phase = .delivering (x :: todo) →
      agent ∈ x :: todo → (s.messageQ x).isSome
  | .construct _ | .install _ | .call _ | .publish _ _ _ | .snapshot _ => True

/-- What has been settled stays so. -/
theorem Settled.step (h : s.Settled i agent n) {a : Action M}
    (hst : (machine serialize).step s a = some t) :
    t.Settled i agent n ∧ Unblocked i agent s a := by
  obtain ⟨⟨task, hi, hphase, hnot⟩, hholds⟩ := h
  by_cases ha : a = .deliver i
  · subst ha
    have hunblocked : Unblocked i agent s (.deliver i) := by
      intro _ task' hi' x todo htodo hmem
      rw [hi, Option.mem_some_iff] at hi'
      subst hi'
      exact absurd hmem (hnot _ htodo)
    refine ⟨?_, hunblocked⟩
    obtain ⟨task', hi', hturns⟩ := deliver_cases hst
    rw [hi, Option.some.injEq] at hi'
    subst hi'
    cases hturns with
    | ends => exact ⟨⟨_, setPhase_getElem?_self hi _, nofun, nofun⟩, hholds⟩
    | @pubSub x todo htodo =>
      obtain ⟨hx, hrest⟩ := not_or.mp (List.mem_cons.not.mp (hnot _ htodo))
      have hsame := hholds.pubSubTurn serialize i task x
      rw [if_neg fun hand => hx hand.2.1.symm] at hsame
      rw [← pubSubTurn_tasks s serialize i task x] at hi
      refine ⟨⟨_, setPhase_getElem?_self hi _, nofun, ?_⟩, hsame⟩
      rintro todo' ⟨⟩
      exact hrest
    | @puts x todo s' htodo _ hturn =>
      obtain ⟨hx, hrest⟩ := not_or.mp (List.mem_cons.not.mp (hnot _ htodo))
      have hsame := hholds.put hturn
      rw [if_neg fun hand => hx hand.2.symm] at hsame
      rw [← put_tasks hturn] at hi
      refine ⟨⟨_, setPhase_getElem?_self hi _, nofun, ?_⟩, hsame⟩
      rintro todo' ⟨⟩
      exact hrest
    | throws => exact ⟨⟨_, setPhase_getElem?_self hi _, nofun, nofun⟩, hholds⟩
  · obtain ⟨hi', hholds'⟩ := hholds.step hi hphase ha hst
    refine ⟨⟨⟨task, hi', hphase, hnot⟩, hholds'⟩, ?_⟩
    cases a with
    | deliver j => exact fun hji => absurd (congrArg Action.deliver hji) ha
    | _ => trivial

theorem Settled.run (h : s.Settled i agent n) {as : List (Action M)}
    (hrun : (machine serialize).run s as = some t) :
    t.puts i agent = n ∧ (machine serialize).Along (Unblocked i agent) s as := by
  induction as generalizing s with
  | nil =>
    rw [Machine.run_nil, Option.some.injEq] at hrun
    rw [← hrun]
    exact ⟨h.holds.puts_eq, trivial⟩
  | cons a as ih =>
    obtain ⟨u, hu, hrun⟩ := Machine.run_cons_eq_some.mp hrun
    obtain ⟨hsettled, hunblocked⟩ := h.step hu
    obtain ⟨hputs, halong⟩ := ih hsettled hrun
    exact ⟨hputs, (Machine.along_cons_of_step hu as).mpr ⟨hunblocked, halong⟩⟩

/-- The steps of others leave an agent that is still to come where it is. -/
theorem Awaiting.step_of_ne {runme : M} {except : Option Agent}
    (h : s.Awaiting i runme except agent) {a : Action M} (ha : a ≠ .deliver i)
    (hst : (machine serialize).step s a = some t) :
    t.Awaiting i runme except agent ∧ Unblocked i agent s a := by
  obtain ⟨⟨channel, todo, hi, hnodup, hmem⟩, hholds⟩ := h
  obtain ⟨hi', hholds'⟩ := hholds.step hi nofun ha hst
  refine ⟨⟨⟨channel, todo, hi', hnodup, hmem⟩, hholds'⟩, ?_⟩
  cases a with
  | deliver j => exact fun hji => absurd (congrArg Action.deliver hji) ha
  | _ => trivial

/-- On a pub/sub server the agent comes closer, or has its turn. -/
theorem Awaiting.step_of_isPubSub {runme : M} {except : Option Agent}
    (h : s.Awaiting i runme except agent) (hpubSub : s.global.isPubSub = true) {a : Action M}
    (hst : (machine serialize).step s a = some t) :
    t.Awaiting i runme except agent ∨ t.Settled i agent
      (if some agent ≠ except ∧ (serialize runme).isSome then 1 else 0) := by
  by_cases ha : a = .deliver i
  · subst ha
    obtain ⟨⟨channel, todo, hi, hnodup, hmem⟩, hholds⟩ := h
    obtain ⟨task, hi', hturns⟩ := deliver_cases hst
    obtain rfl := Option.some.inj (hi.symm.trans hi')
    cases hturns with
    | ends hphase =>
      cases hphase
      cases hmem
    | @pubSub x rest hphase _ =>
      cases hphase
      obtain ⟨hnotin, hnodup⟩ := List.nodup_cons.mp hnodup
      have hput := hholds.pubSubTurn serialize i ⟨channel, runme, except, .delivering (x :: rest)⟩ x
      rw [← pubSubTurn_tasks s serialize i ⟨channel, runme, except, .delivering (x :: rest)⟩ x] at hi
      rcases List.mem_cons.mp hmem with rfl | hmem
      · refine .inr ⟨⟨_, setPhase_getElem?_self hi _, nofun, ?_⟩, ?_⟩
        · rintro todo ⟨⟩
          exact hnotin
        · simp only [true_and, zero_add] at hput
          exact hput
      · have hx : x ≠ agent := fun hxa => hnotin (hxa ▸ hmem)
        rw [if_neg fun hand => hx hand.2.1] at hput
        exact .inl ⟨⟨channel, rest, setPhase_getElem?_self hi _, hnodup, hmem⟩, hput⟩
    | puts _ hplain => rw [hpubSub] at hplain; cases hplain
    | throws _ hplain => rw [hpubSub] at hplain; cases hplain
  · exact .inl (h.step_of_ne ha hst).1

/-- On another server the agent comes closer, or has its turn, or the task ends before that because
an agent without a `messageQ` has its turn. -/
theorem Awaiting.step_of_plain {runme : M} {except : Option Agent}
    (h : s.Awaiting i runme except agent) (hplain : s.global.isPubSub = false) {a : Action M}
    (hst : (machine serialize).step s a = some t) :
    (t.Awaiting i runme except agent ∧ Unblocked i agent s a) ∨
      (t.Settled i agent 1 ∧ Unblocked i agent s a) ∨
      (t.Settled i agent 0 ∧ ¬Unblocked i agent s a) := by
  by_cases ha : a = .deliver i
  · subst ha
    obtain ⟨⟨channel, todo, hi, hnodup, hmem⟩, hholds⟩ := h
    obtain ⟨task, hi', hturns⟩ := deliver_cases hst
    obtain rfl := Option.some.inj (hi.symm.trans hi')
    cases hturns with
    | ends hphase =>
      cases hphase
      cases hmem
    | pubSub _ hpubSub => rw [hplain] at hpubSub; cases hpubSub
    | @puts x rest s' hphase _ hturn =>
      cases hphase
      obtain ⟨hnotin, hnodup⟩ := List.nodup_cons.mp hnodup
      have hunblocked : Unblocked i agent s (.deliver i) := by
        intro _ task htask y todo hphase _
        obtain rfl := Option.some.inj (hi.symm.trans htask)
        cases hphase
        obtain ⟨q, hq, -⟩ := put_eq_some hturn
        rw [hq]
        rfl
      have hput := hholds.put hturn
      rw [← put_tasks hturn] at hi
      rcases List.mem_cons.mp hmem with rfl | hmem
      · refine .inr (.inl ⟨⟨⟨_, setPhase_getElem?_self hi _, nofun, ?_⟩, ?_⟩, hunblocked⟩)
        · rintro todo ⟨⟩
          exact hnotin
        · simp only [and_self, if_true, zero_add] at hput
          exact hput
      · have hx : x ≠ agent := fun hxa => hnotin (hxa ▸ hmem)
        rw [if_neg fun hand => hx hand.2] at hput
        exact .inl ⟨⟨⟨channel, rest, setPhase_getElem?_self hi _, hnodup, hmem⟩, hput⟩, hunblocked⟩
    | @throws x rest hphase _ hturn =>
      cases hphase
      refine .inr (.inr ⟨⟨⟨_, setPhase_getElem?_self hi _, nofun, nofun⟩, hholds⟩, ?_⟩)
      intro hunblocked
      have hsome := hunblocked rfl _ hi x rest rfl hmem
      rw [turn, DeliveryServer.put, Option.map_eq_none_iff] at hturn
      rw [hturn] at hsome
      cases hsome
  · exact .inl (h.step_of_ne ha hst)

/-- A task is not at its end while an agent is still to come. -/
theorem Awaiting.not_ended {runme : M} {except : Option Agent}
    (h : s.Awaiting i runme except agent) : ¬s.Ended i := by
  obtain ⟨⟨channel, todo, hi, -, -⟩, -⟩ := h
  rintro ⟨task, htask, hend⟩
  obtain rfl := Option.some.inj (hi.symm.trans htask)
  rcases hend with hdone | hdead
  · cases hdone
  · cases hdead

/-- The run lemma for a pub/sub server: what the other agents are does not matter. -/
theorem Awaiting.run_of_isPubSub {runme : M} {except : Option Agent}
    (h : s.Awaiting i runme except agent) (hpubSub : s.global.isPubSub = true)
    {as : List (Action M)} (hrun : (machine serialize).run s as = some t) (hend : t.Ended i) :
    t.puts i agent = if some agent ≠ except ∧ (serialize runme).isSome then 1 else 0 := by
  induction as generalizing s with
  | nil =>
    rw [Machine.run_nil, Option.some.injEq] at hrun
    exact absurd (hrun ▸ hend) h.not_ended
  | cons a as ih =>
    obtain ⟨u, hu, hrun⟩ := Machine.run_cons_eq_some.mp hrun
    rcases h.step_of_isPubSub hpubSub hu with hawait | hsettled
    · exact ih hawait ((isPubSub_step hu).trans hpubSub) hrun
    · exact (hsettled.run hrun).1

/-- The run lemma for another server. -/
theorem Awaiting.run_of_plain {runme : M} {except : Option Agent}
    (h : s.Awaiting i runme except agent) (hplain : s.global.isPubSub = false)
    {as : List (Action M)} (hrun : (machine serialize).run s as = some t) (hend : t.Ended i) :
    t.puts i agent = 1 ↔ (machine serialize).Along (Unblocked i agent) s as := by
  induction as generalizing s with
  | nil =>
    rw [Machine.run_nil, Option.some.injEq] at hrun
    exact absurd (hrun ▸ hend) h.not_ended
  | cons a as ih =>
    obtain ⟨u, hu, hrun⟩ := Machine.run_cons_eq_some.mp hrun
    rw [Machine.along_cons_of_step hu]
    rcases h.step_of_plain hplain hu with ⟨hawait, hgo⟩ | ⟨hsettled, hgo⟩ | ⟨hsettled, hgo⟩
    · rw [ih hawait ((isPubSub_step hu).trans hplain) hrun, and_iff_right hgo]
    · obtain ⟨hputs, halong⟩ := hsettled.run hrun
      exact iff_of_true hputs ⟨hgo, halong⟩
    · have hputs := (hsettled.run hrun).1
      rw [hputs]
      exact iff_of_false (by decide) fun hand => hgo hand.1

/-- Left to itself, a task comes to its end. -/
theorem exists_run_ended (serialize : M → Option String) {channel : String} {runme : M}
    {except : Option Agent} (todo : List Agent) :
    ∀ {s : DeliveryServer M}, s.tasks[i]? = some ⟨channel, runme, except, .delivering todo⟩ →
      ∃ as t, (machine serialize).run s as = some t ∧ t.Ended i := by
  induction todo with
  | nil =>
    intro s hi
    have hst : (machine serialize).step s (.deliver i) =
        some (s.setPhase i ⟨channel, runme, except, .delivering []⟩ .done) := by
      simp [machine, hi]
    refine ⟨[.deliver i], _, Machine.run_cons_of_step hst [], ?_⟩
    exact ⟨_, setPhase_getElem?_self hi _, .inl rfl⟩
  | cons x todo ih =>
    intro s hi
    -- whatever the turn of an agent does, the loop goes on behind it, or the task is dead
    have hst : ((machine serialize).step s (.deliver i)).isSome := by
      simp only [machine, hi]
      split
      next => rfl
      next => split <;> rfl
    obtain ⟨t, hst⟩ := Option.isSome_iff_exists.mp hst
    obtain ⟨task, hi', hturns⟩ := deliver_cases hst
    obtain rfl := Option.some.inj (hi.symm.trans hi')
    -- whatever the turn of an agent does, the loop goes on behind it, or the task is dead
    have hnext : t.tasks[i]? = some ⟨channel, runme, except, .delivering todo⟩ ∨ t.Ended i := by
      cases hturns with
      | ends hphase => cases hphase
      | @pubSub x todo hphase _ =>
        cases hphase
        rw [← pubSubTurn_tasks s serialize i _ x] at hi
        exact .inl (setPhase_getElem?_self hi _)
      | puts hphase _ hturn =>
        cases hphase
        rw [← put_tasks hturn] at hi
        exact .inl (setPhase_getElem?_self hi _)
      | throws => exact .inr ⟨_, setPhase_getElem?_self hi _, .inr rfl⟩
    rcases hnext with hti | hend
    · obtain ⟨as, u, hrun, hend⟩ := ih hti
      exact ⟨.deliver i :: as, u, (Machine.run_cons_of_step hst as).trans hrun, hend⟩
    · exact ⟨[.deliver i], t, Machine.run_cons_of_step hst [], hend⟩

/-! ### Every agent in the loop -/

/-- The task is past its snapshot. -/
def Underway (s : DeliveryServer M) (i : ℕ) : Prop :=
  ∃ task, s.tasks[i]? = some task ∧ task.phase ≠ .submitted

/-- What is on a `messageQ` comes from tasks past their snapshots. -/
def Begun (s : DeliveryServer M) : Prop :=
  ∀ agent q, s.messageQ agent = some q → ∀ entry ∈ q, s.Underway entry.1

theorem Begun.puts_eq_zero (h : s.Begun) (hi : s.tasks[i]? = some task)
    (hphase : task.phase = .submitted) (agent : Agent) : s.puts i agent = 0 := by
  rw [puts]
  cases hq : s.messageQ agent with
  | none => rfl
  | some q =>
    refine List.countP_eq_zero.mpr fun entry hentry => ?_
    obtain ⟨task', htask', hphase'⟩ := h agent q hq entry hentry
    rw [decide_eq_true_iff]
    intro heq
    rw [heq, hi, Option.some.injEq] at htask'
    exact hphase' (htask' ▸ hphase)

theorem Underway.setPhase {k : ℕ} (h : s.Underway k) {phase : LoopPhase}
    (hphase : phase ≠ .submitted) : (s.setPhase i task phase).Underway k := by
  obtain ⟨task', htask', hphase'⟩ := h
  by_cases hik : i = k
  · subst hik
    exact ⟨_, List.getElem?_set_self (List.getElem?_eq_some_iff.mp htask').1, hphase⟩
  · exact ⟨task', (setPhase_getElem?_of_ne hik _).trans htask', hphase'⟩

theorem Begun.setPhase (h : s.Begun) {phase : LoopPhase} (hphase : phase ≠ .submitted) :
    (s.setPhase i task phase).Begun := fun agent q hq entry hentry =>
  (h agent q hq entry hentry).setPhase hphase

/-- What is on a `messageQ` after one of them has changed. -/
theorem update_eq_some {messageQ : Agent → Option (List (ℕ × Queued M))}
    {q q' : List (ℕ × Queued M)} (h : Function.update messageQ x (some q') agent = some q) :
    q = q' ∨ messageQ agent = some q := by
  rw [Function.update_apply] at h
  split at h
  next => exact .inl (Option.some.inj h).symm
  next => exact .inr h

theorem Begun.put (h : s.Begun) (hi : s.Underway i) {message : Queued M}
    (hput : s.put i x message = some s') : s'.Begun := by
  obtain ⟨q', hq', rfl⟩ := put_eq_some hput
  intro agent q hq entry hentry
  rcases update_eq_some hq with rfl | hq
  · rcases List.mem_append.mp hentry with hentry | hentry
    · exact h x q' hq' entry hentry
    · rw [List.mem_singleton.mp hentry]
      exact hi
  · exact h agent q hq entry hentry

theorem Begun.pubSubTurn (h : s.Begun) (hi : s.Underway i) :
    (s.pubSubTurn serialize i task x).Begun := by
  obtain ⟨message, s', -, hput, heq⟩ | ⟨-, heq⟩ := pubSubTurn_cases s serialize i task x
  · rw [heq]
    exact h.put hi hput
  · rwa [heq]

/-- The step lemma. -/
theorem Begun.step (h : s.Begun) {a : Action M} (hst : (machine serialize).step s a = some t) :
    t.Begun := by
  cases a with
  | construct key => cases hst; exact h
  | install x =>
    simp only [machine] at hst
    split at hst
    next =>
      cases hst
      intro agent q hq entry hentry
      rcases update_eq_some hq with rfl | hq
      · cases hentry
      · exact h agent q hq entry hentry
    next => cases hst
  | call call => cases hst; exact h
  | publish channel runme except =>
    cases hst
    rw [DeliveryServer.publish]
    split
    next => exact h
    next =>
      intro agent q hq entry hentry
      obtain ⟨task, htask, hphase⟩ := h agent q hq entry hentry
      refine ⟨task, ?_, hphase⟩
      exact (List.getElem?_append_left (List.getElem?_eq_some_iff.mp htask).1).trans htask
  | snapshot j =>
    simp only [machine] at hst
    split at hst
    next => cases hst; exact h.setPhase nofun
    next => cases hst
  | deliver j =>
    obtain ⟨task, hj, hturns⟩ := deliver_cases hst
    cases hturns with
    | ends => exact h.setPhase nofun
    | pubSub hphase =>
      have hj : s.Underway j := ⟨task, hj, hphase ▸ nofun⟩
      exact (h.pubSubTurn hj).setPhase nofun
    | puts hphase _ hturn =>
      have hj : s.Underway j := ⟨task, hj, hphase ▸ nofun⟩
      exact (h.put hj hturn).setPhase nofun
    | throws => exact h.setPhase nofun

/-- A server before its first agent. -/
def start (isPubSub : Bool) (thePubSub : Option (List (Command M))) : DeliveryServer M where
  global := { isPubSub := isPubSub, thePubSub := thePubSub }

/-- **Who gets a message.** A task takes its snapshot, with an agent in it that has its `messageQ`.
Then the task can be run to its end, and in whatever company it is run to its end, its message has
been put on the `messageQ` of the agent exactly once if and only if: on a pub/sub server, the
message did not come from the agent and can be written as a string; on another server, all the
agents that had their turn while the agent was still to come had a `messageQ` then. -/
theorem delivered_once_iff (isPubSub : Bool) (thePubSub : Option (List (Command M)))
    (hs : (machine serialize).Reaches (start isPubSub thePubSub) s) {channel : String} {runme : M}
    {except : Option Agent} (hi : s.tasks[i]? = some ⟨channel, runme, except, .submitted⟩)
    (hsnapshot : (machine serialize).step s (.snapshot i) = some t)
    (hmem : agent ∈ s.global.subscribers channel) (hagent : (s.messageQ agent).isSome) :
    (∃ as u, (machine serialize).run t as = some u ∧ u.Ended i) ∧
    ∀ as u, (machine serialize).run t as = some u → u.Ended i →
      (u.puts i agent = 1 ↔
        if s.global.isPubSub then some agent ≠ except ∧ (serialize runme).isSome
        else (machine serialize).Along (Unblocked i agent) t as) := by
  have hbegun : s.Begun := hs.invariant (fun h hst => h.step hst) nofun
  obtain rfl : t = s.setPhase i ⟨channel, runme, except, .submitted⟩
      (.delivering (s.global.subscribers channel).elems) := by
    simpa [machine, hi] using hsnapshot.symm
  have hti := setPhase_getElem?_self hi (.delivering (s.global.subscribers channel).elems)
  refine ⟨exists_run_ended serialize _ hti, fun as u hrun hend => ?_⟩
  obtain ⟨q, hq⟩ := Option.isSome_iff_exists.mp hagent
  have hzero := hbegun.puts_eq_zero hi rfl agent
  rw [puts, hq, Option.getD_some] at hzero
  have hawait : Awaiting _ i runme except agent :=
    ⟨⟨channel, _, hti, KSet.nodup _, hmem⟩, ⟨q, hq, hzero⟩⟩
  split
  next hpubSub =>
    rw [hawait.run_of_isPubSub hpubSub hrun hend]
    split <;> simp [*]
  next hplain => exact hawait.run_of_plain (Bool.eq_false_iff.mpr hplain) hrun hend

/-- An agent behind another one that is still under construction. -/
theorem delivered_once_iff_under_construction :
    let J : Machine (DeliveryServer Unit) (Action Unit) := machine fun _ => some "m"
    let b : Agent := { id := 1, hash := "key2" }
    ∃ s t, J.Reaches (start false none) s ∧ J.step s (.snapshot 0) = some t ∧
      (∃ as u, J.run t as = some u ∧ u.Ended 0) ∧
      ∀ as u, J.run t as = some u → u.Ended 0 →
        (u.puts 0 b = 1 ↔ if s.global.isPubSub then some b ≠ none ∧ (some "m").isSome
          else J.Along (Unblocked 0 b) t as) := by
  intro J b
  obtain ⟨s, hs, ⟨hi, hmem, hagent⟩, t, ht, -⟩ :=
    Machine.Reaches.exists_of_run (m := J) (s := start false none)
      (P := fun s => (s.tasks[0]? = some ⟨"key1", (), none, .submitted⟩ ∧
        b ∈ s.global.subscribers "key1" ∧ (s.messageQ b).isSome) ∧
        ∃ t ∈ J.step s (.snapshot 0), True)
      [.construct "key1", .construct "key2", .install b, .call (.subscribe b "key1"),
        .publish "key1" () none] (by decide)
  exact ⟨s, t, hs, ht, delivered_once_iff false none hs hi ht hmem hagent⟩

/-- **One agent starves the others.** The first agent is subscribed to its key and has no
`messageQ` yet; the second one has, and has subscribed to the same channel. A message published
there ends its task at the first agent and is never put on the `messageQ` of the second. -/
theorem agent_starved :
    let J : Machine (DeliveryServer Unit) (Action Unit) := machine fun _ => some "m"
    let b : Agent := { id := 1, hash := "key2" }
    ∃ s, J.Reaches (start false none) s ∧
      (s.tasks[0]? = some ⟨"key1", (), none, .submitted⟩ ∧
        b ∈ s.global.subscribers "key1" ∧ (s.messageQ b).isSome) ∧
      ∃ u ∈ J.run s [.snapshot 0, .deliver 0], u.Ended 0 ∧ u.puts 0 b = 0 :=
  Machine.Reaches.exists_of_run
    [.construct "key1", .construct "key2", .install { id := 1, hash := "key2" },
      .call (.subscribe { id := 1, hash := "key2" } "key1"), .publish "key1" () none] (by decide)

end DeliveryServer

end Gwems
