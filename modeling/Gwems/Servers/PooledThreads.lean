import Gwems.Library.Machine
import Gwems.Servers.ExecutionContext

/-!
# Pooled threads: whose context a message sees

A thread of a server's pool runs one task after the other, and its `ExecutionContext` lives as long
as the thread. Two things should hold: a message of an agent's `messageQ` starts with that agent in
the context, and no task leaves an agent, a channel or script mode behind for the next one.

Neither does in general. `MyAgentLocalRunner` puts its agent into the context once for each
activation, but a wrapped delivery takes it out when it returns (`starts_under_own_agent_iff`). The
line that would take the agent out at the end of an activation is commented out, nothing resets
what a message that throws has left, and a script that throws leaves `isJs` set
(`pool_thread_clean_iff`).
-/

namespace Gwems

/-! ### The tasks of the pool -/

/-- `Global.execute(r)`: the task that it hands to the executor. -/
def executeOn (global : ℕ) (r : ExecutionContext → ExecutionContext × Outcome)
    (ec : ExecutionContext) : ExecutionContext × Outcome :=
  andThen (r { ec with global := some global }) fun ec => { ec with global := none }

/-- What a link receives: a `P2C`, or another message. -/
inductive FromParent
  | p2c
  | message (m : Message)
deriving DecidableEq

/-- The tasks of a server's pool: an activation of a mailbox's runner, with the messages it finds; a
message or a wrapped delivery of its own; the tasks of `publish` and of
`LocalSubscriberHandler.handle`, with how they end; and a frame that a client or a link has received
(`none` where it cannot be read). -/
inductive PoolTask
  | runner (q : List Runnable)
  | agentRunner (agent : Agent) (q : List Runnable)
  | linkRunner (agent : Agent) (writes : List Outcome)
  | sessionRunner (agent : Agent) (q : List SocketText)
  | runnable (r : Runnable)
  | publish (channel : String) (outcome : Outcome)
  | handle (outcome : Outcome)
  | clientMessage (client : Agent) (read : Option Message)
  | linkMessage (read : Option FromParent)
deriving DecidableEq

/-- The task of `WsClientImpl.executeChannelMessage`. -/
def WsClientImpl.executeChannelMessage (client : Agent) (read : Option Message)
    (ec : ExecutionContext) : ExecutionContext × Outcome :=
  match read with
  | none => (ec, .returns)
  | some child => child.run { ec with agent := some client }

/-- The task of `PubSubWsClientImpl.executeChannelMessage`: the handler of a `P2C` starts a task of
its own. -/
def PubSubWsClientImpl.executeChannelMessage (read : Option FromParent) (ec : ExecutionContext) :
    ExecutionContext × Outcome :=
  match read with
  | none | some .p2c => (ec, .returns)
  | some (.message obj) =>
    match obj.run ec with
    | (ec', .returns) | (ec', .exception) => (ec', .returns)
    | (ec', .error) => (ec', .error)

/-- A task. `publish` and `handle` give theirs to the executor themselves. -/
def PoolTask.run (global : ℕ) : PoolTask → ExecutionContext → ExecutionContext × Outcome
  | .runner q => executeOn global (localRunner q)
  | .agentRunner agent q => executeOn global (agentLocalRunner agent q)
  | .linkRunner agent writes => executeOn global (linkLocalRunner agent writes)
  | .sessionRunner agent q => executeOn global (sessionLocalRunner agent q)
  | .runnable r => executeOn global r.run
  | .publish channel outcome => fun ec =>
    andThen ({ ec with subscribedChannel := some channel }, outcome)
      fun ec => { ec with subscribedChannel := none }
  | .handle outcome => fun ec => (ec, outcome)
  | .clientMessage client read => executeOn global (WsClientImpl.executeChannelMessage client read)
  | .linkMessage read => executeOn global (PubSubWsClientImpl.executeChannelMessage read)

/-- A thread of the pool. The executor replaces a thread out of which a task has thrown. -/
structure PoolThread where
  context : ExecutionContext := {}
  alive : Bool := true
deriving DecidableEq

/-- The life of a thread: any tasks, as long as they return. -/
def PoolThread.machine (global : ℕ) : Machine PoolThread PoolTask where
  step t task :=
    if t.alive then
      let (context, outcome) := task.run global t.context
      some { context := context, alive := outcome = .returns }
    else none

/-! ### Leftovers -/

/-- Nothing in the context that the next task could take for its own. -/
structure ExecutionContext.Clean (ec : ExecutionContext) : Prop where
  agent_eq_none : ec.agent = none
  subscribedChannel_eq_none : ec.subscribedChannel = none
  isJs_eq_false : ec.isJs = false

instance (ec : ExecutionContext) : Decidable ec.Clean :=
  decidable_of_iff (ec.agent = none ∧ ec.subscribedChannel = none ∧ ec.isJs = false)
    ⟨fun h => ⟨h.1, h.2.1, h.2.2⟩, fun h => ⟨h.1, h.2, h.3⟩⟩

/-- Among the turns that a loop got to, the last one with an agent of its own returned (there is one
if the loop has an agent), and the last one that evaluated a script ended it normally. -/
def Settled (start : Bool) (q : List Conduct) : Prop :=
  holdsAgent start (executed start [] q) = false ∧ jsMode start (executed start [] q) = false

/-- When a task tidies up after itself. -/
def PoolTask.Tidy : PoolTask → Prop
  | .runner q => Settled false (q.map Runnable.conduct)
  | .agentRunner _ q => Settled true (q.map Runnable.conduct)
  | .linkRunner _ _ => False
  | .sessionRunner _ q => Settled false (q.map SocketText.conduct)
  | .runnable r => Settled false [r.conduct]
  | .publish _ outcome => outcome = .returns
  | .handle _ => True
  | .clientMessage _ read => read = none
  | .linkMessage _ => True

variable {global : ℕ} {ec : ExecutionContext}

/-- `Global.execute` itself only touches `global`. -/
theorem clean_executeOn_iff (r : ExecutionContext → ExecutionContext × Outcome) :
    (executeOn global r ec).1.Clean ↔ (r { ec with global := some global }).1.Clean := by
  rw [executeOn, andThen]
  split
  · exact ⟨fun h => ⟨h.1, h.2, h.3⟩, fun h => ⟨h.1, h.2, h.3⟩⟩
  · exact Iff.rfl
  · exact Iff.rfl

/-- A described context is clean if the turns behind it have settled. -/
theorem Describes.clean_iff {start wrapped : Bool} {done : List Conduct}
    (h : Describes start wrapped done ec) :
    ec.Clean ↔ holdsAgent start done = false ∧ jsMode start done = false := by
  rw [← h.agent_isSome, ← h.isJs_eq, Option.isSome_eq_false_iff, Option.isNone_iff_eq_none]
  refine ⟨fun hc => ⟨hc.1, hc.3⟩, fun hc => ⟨hc.1, ?_, hc.2⟩⟩
  by_contra hne
  have hagent := (h.of_subscribedChannel (Option.isSome_iff_ne_none.mpr hne)).2
  rw [hc.1] at hagent
  cases hagent

/-- The context in which `Global.execute` starts a loop on a clean thread. -/
theorem ExecutionContext.Clean.describes (h : ec.Clean) (wrapped : Bool) :
    Describes false wrapped [] { ec with global := some global } where
  global_isSome := rfl
  agent_isSome := congrArg Option.isSome h.agent_eq_none
  of_subscribedChannel hsome := by
    rw [h.subscribedChannel_eq_none] at hsome
    cases hsome
  isJs_eq := h.isJs_eq_false

/-- The same for a loop that puts its agent there first. -/
theorem ExecutionContext.Clean.describes_agent (h : ec.Clean) (wrapped : Bool) (agent : Agent) :
    Describes true wrapped [] { ec with global := some global, agent := some agent } where
  global_isSome := rfl
  agent_isSome := rfl
  of_subscribedChannel hsome := by
    rw [h.subscribedChannel_eq_none] at hsome
    cases hsome
  isJs_eq := h.isJs_eq_false

/-- The agent of a loop whose messages have none of their own stays. -/
theorem holdsAgent_of_forall {start : Bool} {done : List Conduct}
    (h : ∀ c ∈ done, c.scopes = false) : holdsAgent start done = start := by
  have hnone : done.find? Conduct.scopes = none :=
    List.find?_eq_none.mpr fun c hc => by simp [h c hc]
  rw [holdsAgent, hnone]

theorem mem_of_mem_executed {start : Bool} {done q : List Conduct} {c : Conduct}
    (h : c ∈ executed start done q) : c ∈ done ∨ c ∈ q := by
  induction q generalizing done with
  | nil => exact .inl h
  | cons c' q ih =>
    rw [executed] at h
    split at h
    · rcases List.mem_cons.mp h with rfl | h
      · exact .inr List.mem_cons_self
      · exact .inl h
    · rcases ih h with h | h
      · rcases List.mem_cons.mp h with rfl | h
        · exact .inr List.mem_cons_self
        · exact .inl h
      · exact .inr (List.mem_cons_of_mem _ h)

/-- A single turn of a loop is the task that runs its message alone. -/
theorem Describes.clean_single_iff {wrapped : Bool} {R : Type*}
    {body : R → ExecutionContext → ExecutionContext × Outcome} {conduct : R → Conduct}
    (h : Describes false wrapped [] ec) (hbody : Follows false wrapped body conduct) (r : R) :
    (body r ec).1.Clean ↔ Settled false [conduct r] := by
  rw [(hbody [] ec r h).2.clean_iff, Settled, executed]
  split <;> exact Iff.rfl

/-- **A task tidies up exactly if …** On a clean thread a task leaves a clean context behind exactly
if it meets the condition. -/
theorem PoolTask.clean_run_iff (h : ec.Clean) (task : PoolTask) :
    (task.run global ec).1.Clean ↔ task.Tidy := by
  cases task with
  | runner q =>
    exact (clean_executeOn_iff _).trans
      ((h.describes true).drain (follows_runnable false) q).clean_iff
  | agentRunner agent q =>
    exact (clean_executeOn_iff _).trans
      ((h.describes_agent true agent).drain (follows_runnable true) q).clean_iff
  | linkRunner agent writes =>
    refine (clean_executeOn_iff _).trans
      (((h.describes_agent false agent).drain (follows_write true) writes).clean_iff.trans ?_)
    have hstays : holdsAgent true (executed true []
        (writes.map fun o => (Message.other o).conduct)) = true := by
      refine holdsAgent_of_forall fun c hc => ?_
      rcases mem_of_mem_executed hc with hc | hc
      · cases hc
      · obtain ⟨o, -, rfl⟩ := List.mem_map.mp hc
        rfl
    rw [hstays]
    exact iff_of_false (fun hf => Bool.noConfusion hf.1) not_false
  | sessionRunner agent q =>
    exact (clean_executeOn_iff _).trans
      ((h.describes false).drain (follows_sessionTurn false agent) q).clean_iff
  | runnable r =>
    exact (clean_executeOn_iff _).trans
      ((h.describes true).clean_single_iff (follows_runnable false) r)
  | publish channel outcome =>
    cases outcome with
    | returns => exact iff_of_true ⟨h.1, rfl, h.3⟩ rfl
    | exception | error => exact iff_of_false (fun hc => nomatch hc.2) nofun
  | handle outcome => exact iff_of_true h trivial
  | clientMessage client read =>
    refine (clean_executeOn_iff _).trans ?_
    cases read with
    | none => exact iff_of_true ⟨h.1, h.2, h.3⟩ rfl
    | some child =>
      -- nobody takes the client out of the context
      refine iff_of_false (fun hc => ?_) nofun
      have hagent := hc.1
      rw [WsClientImpl.executeChannelMessage, child.run_eq rfl] at hagent
      cases hagent
  | linkMessage read =>
    refine (clean_executeOn_iff _).trans (iff_of_true ?_ trivial)
    rcases read with _ | _ | obj
    · exact ⟨h.1, h.2, h.3⟩
    · exact ⟨h.1, h.2, h.3⟩
    · -- without an agent the message evaluates no script
      have hclean : (obj.run { ec with global := some global }).1.Clean := by
        rw [obj.run_eq rfl, h.agent_eq_none]
        refine ⟨rfl, h.2, ?_⟩
        rw [Option.isSome_none, obj.leavesJs_of_absent]
        exact h.3
      simp only [PubSubWsClientImpl.executeChannelMessage]
      split <;> next heq => exact (congrArg Prod.fst heq) ▸ hclean

/-- A thread runs tasks while it is alive. -/
theorem PoolThread.step_cases {t t' : PoolThread} {task : PoolTask}
    (h : (PoolThread.machine global).step t task = some t') :
    t.alive = true ∧ t'.context = (task.run global t.context).1 := by
  simp only [PoolThread.machine] at h
  split at h
  next halive => exact ⟨halive, (congrArg PoolThread.context (Option.some.inj h)).symm⟩
  next => cases h

/-- **When pooled threads stay clean.** Along the life of any thread, with any tasks that end in
any way: the context is clean before and after every task exactly if every task tidies up. -/
theorem pool_thread_clean_iff {tasks : List PoolTask} {t : PoolThread}
    (h : (PoolThread.machine global).run {} tasks = some t) :
    (PoolThread.machine global).Throughout (fun t => t.context.Clean) {} tasks ↔
      (PoolThread.machine global).Along (fun _ task => task.Tidy) {} tasks := by
  refine Machine.throughout_iff_along (I := fun t => t.context.Clean) (P := fun t => t.context.Clean)
    id ?_ ?_ ⟨rfl, rfl, rfl⟩ h
  · intro s t task hG hI hst
    rw [(PoolThread.step_cases hst).2]
    exact (PoolTask.clean_run_iff hI task).mpr hG
  · intro s t task hG hI hst hP
    rw [(PoolThread.step_cases hst).2] at hP
    exact hG ((PoolTask.clean_run_iff hI task).mp hP)

/-- A publish, an activation with a script and a delivery behind it, and a session that reads a
text. -/
theorem pool_thread_clean_iff_three_tasks :
    let a : Agent := { id := 0, hash := "a" }
    let tasks : List PoolTask := [.publish "chan" .returns,
      .agentRunner a [.message (.js {}), .channelSubscriberWrapper "chan" a (.other .returns)],
      .sessionRunner a [{ read := some (.other .returns) }]]
    (PoolThread.machine 0).Throughout (fun t => t.context.Clean) {} tasks ↔
      (PoolThread.machine 0).Along (fun _ task => task.Tidy) {} tasks := by
  let t : PoolThread := { context := {}, alive := true }
  exact pool_thread_clean_iff (show _ = some t by decide)

/-- An agent's mailbox with one message that returns, and the same with a script that throws and a
delivery behind it. -/
theorem pool_thread_leftovers :
    ¬∀ (task : PoolTask) (ec : ExecutionContext), ec.Clean →
      ((task.run 0 ec).1.agent = none ∧ (task.run 0 ec).1.subscribedChannel = none ∧
        (task.run 0 ec).1.isJs = false) := by
  intro h
  let a : Agent := { id := 0, hash := "a" }
  have hagent := (h (.agentRunner a [.message (.other .returns)]) {} ⟨rfl, rfl, rfl⟩).1
  exact absurd hagent (by decide)

/-! ### Messages under their own agent -/

/-- What is put on the `messageQ` of an agent: a message, or a delivery that `Global.publish` or
`LocalSubscriberHandler` has wrapped for that agent. -/
inductive Mail
  | direct (m : Message)
  | delivery (channel : String) (runme : Message)
deriving DecidableEq

namespace Mail

/-- The runnable in the queue. -/
def runnable (agent : Agent) : Mail → Runnable
  | direct m => .message m
  | delivery channel runme => .channelSubscriberWrapper channel agent runme

/-- The message that it runs. -/
def message : Mail → Message
  | direct m => m
  | delivery _ runme => runme

def isDelivery : Mail → Bool
  | direct _ => false
  | delivery _ _ => true

/-- How it ends where an agent is present. -/
def outcome (mail : Mail) : Outcome := mail.message.conduct.outcome true

end Mail

/-- The agent that the message of a turn finds in the context when it starts: inside a wrapped
delivery the wrapper's, otherwise the one that the turn begins with. -/
def startsUnder : Runnable × ExecutionContext → Option Agent
  | (.channelSubscriberWrapper _ agent _, _) => some agent
  | (.message _, ec) | (.ctxWrapper _, ec) => ec.agent

/-- The turns of an activation of an agent's mailbox, on a thread with any context. -/
def activation (global : ℕ) (agent : Agent) (q : List Mail) (ec : ExecutionContext) :
    List (Runnable × ExecutionContext) :=
  turns Runnable.run (q.map (Mail.runnable agent))
    { ec with global := some global, agent := some agent }

/-- None of these has been a wrapped delivery, or the last one that was has thrown. (With
`start = false` there had been one before that returned.) -/
def NotTakenOut (start : Bool) (pre : List Mail) : Prop :=
  match pre.reverse.find? Mail.isDelivery with
  | some delivery => delivery.outcome ≠ .returns
  | none => start = true

/-- No wrapped delivery that returns comes before a direct message that the activation gets to,
unless a later one has thrown in between. -/
def Undisturbed (start : Bool) (q : List Mail) : Prop :=
  ∀ pre mail post, q = pre ++ mail :: post → mail.isDelivery = false →
    (∀ x ∈ pre, x.outcome ≠ .error) → NotTakenOut start pre

variable {agent : Agent} {start : Bool} {mail : Mail} {q : List Mail}

/-- Whether the agent is still there after a turn. -/
def Mail.keeps (start : Bool) (mail : Mail) : Bool :=
  if mail.isDelivery then mail.outcome ≠ .returns else start

theorem notTakenOut_cons {pre : List Mail} :
    NotTakenOut start (mail :: pre) ↔ NotTakenOut (mail.keeps start) pre := by
  unfold NotTakenOut
  rw [List.reverse_cons, List.find?_append]
  cases pre.reverse.find? Mail.isDelivery with
  | some w => exact Iff.rfl
  | none => cases hmail : mail.isDelivery <;> simp [Mail.keeps, hmail]

/-- The condition, message by message. -/
theorem undisturbed_cons : Undisturbed start (mail :: q) ↔
    (mail.isDelivery = false → start = true) ∧
      (mail.outcome ≠ .error → Undisturbed (mail.keeps start) q) := by
  constructor
  · intro h
    refine ⟨fun hmail => h [] mail q rfl hmail (by simp), fun hne pre m post hq hm hpre => ?_⟩
    have hcons := h (mail :: pre) m post (by rw [hq]; rfl) hm (by simpa using ⟨hne, hpre⟩)
    exact notTakenOut_cons.mp hcons
  · rintro ⟨hmail, hrest⟩ pre m post hq hm hpre
    cases pre with
    | nil =>
      obtain ⟨rfl, -⟩ := List.cons.inj hq
      exact hmail hm
    | cons x pre =>
      obtain ⟨rfl, rfl⟩ := List.cons.inj hq
      exact notTakenOut_cons.mpr (hrest (hpre mail List.mem_cons_self) pre m post rfl hm
        fun y hy => hpre y (List.mem_cons_of_mem _ hy))

/-- The agent is in the context, or nobody is. -/
def HasAgent (agent : Agent) (start : Bool) (ec : ExecutionContext) : Prop :=
  ec.global.isSome = true ∧ ec.agent = if start then some agent else none

/-- What a turn does, for a message that finds its agent. -/
theorem HasAgent.run {ec : ExecutionContext} (h : HasAgent agent start ec)
    (hmail : mail.isDelivery = false → start = true) :
    ((mail.runnable agent).run ec).2 = mail.outcome ∧
      HasAgent agent (mail.keeps start) ((mail.runnable agent).run ec).1 := by
  cases mail with
  | direct m =>
    obtain rfl := hmail rfl
    have hagent : ec.agent.isSome = true := congrArg Option.isSome h.2
    rw [Mail.runnable, Runnable.run, m.run_eq h.1, hagent]
    exact ⟨rfl, h⟩
  | delivery channel runme =>
    let ec₁ := { ec with subscribedChannel := some channel, agent := some agent }
    have hrun := runme.run_eq (show ec₁.global.isSome = true from h.1)
    have hkeeps : (Mail.delivery channel runme).keeps start =
        decide (runme.conduct.outcome true ≠ .returns) := rfl
    have houtcome : (Mail.delivery channel runme).outcome = runme.conduct.outcome true := rfl
    rw [Mail.runnable, Runnable.run, hrun, hkeeps, houtcome, show ec₁.agent.isSome = true from rfl]
    cases ho : runme.conduct.outcome true with
    | returns => exact ⟨rfl, h.1, rfl⟩
    | exception | error => exact ⟨rfl, h.1, rfl⟩

/-- The agent in the context at the start of each turn, for one activation. -/
theorem forall_turns_iff {ec : ExecutionContext} (h : HasAgent agent start ec) :
    (∀ turn ∈ turns Runnable.run (q.map (Mail.runnable agent)) ec, startsUnder turn = some agent) ↔
      Undisturbed start q := by
  induction q generalizing start ec with
  | nil =>
    refine iff_of_true (fun turn hturn => absurd hturn List.not_mem_nil) fun pre m post hq => ?_
    exact absurd hq (by simp)
  | cons mail q ih =>
    rw [List.map_cons, turns, List.forall_mem_cons, undisturbed_cons]
    have hfirst : startsUnder (mail.runnable agent, ec) = some agent ↔
        (mail.isDelivery = false → start = true) := by
      cases mail with
      | delivery channel runme => exact iff_of_true rfl nofun
      | direct m => cases start <;> simp [startsUnder, Mail.runnable, h.2, Mail.isDelivery]
    rw [hfirst]
    refine and_congr_right fun hmail => ?_
    -- the first message finds its agent, so that the rest begins as `keeps` says
    obtain ⟨ho, hnext⟩ := h.run hmail
    rcases hrun : (mail.runnable agent).run ec with ⟨ec', o⟩
    rw [hrun] at ho hnext
    rw [← ho]
    cases o with
    | returns | exception => simpa using ih hnext
    | error => simp

/-- **Whose context a message sees.** However the messages put on the `messageQ` of an agent are
split into activations, on threads with any contexts: each message that runs starts under that
agent exactly if no activation gets to a direct message behind a wrapped delivery that returned,
unless a later delivery threw. -/
theorem starts_under_own_agent_iff (global : ℕ) (agent : Agent)
    (activations : List (List Mail × ExecutionContext)) :
    (∀ act ∈ activations, ∀ turn ∈ activation global agent act.1 act.2,
        startsUnder turn = some agent) ↔
      ∀ act ∈ activations, Undisturbed true act.1 :=
  forall₂_congr fun _ _ => forall_turns_iff ⟨rfl, rfl⟩

/-- A delivery and a script that is put on the mailbox behind it. -/
theorem message_starts_without_agent :
    ¬∀ (agent : Agent) (activations : List (List Mail × ExecutionContext)),
      ∀ act ∈ activations, ∀ turn ∈ activation 0 agent act.1 act.2,
        startsUnder turn = some agent := by
  intro h
  let a : Agent := { id := 0, hash := "a" }
  have hall := h a [([.delivery "chan" (.other .returns), .direct (.js {})], {})] _
    List.mem_cons_self
  exact absurd hall (by decide)

end Gwems
