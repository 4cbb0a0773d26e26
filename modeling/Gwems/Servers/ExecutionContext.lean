import Gwems.Agents.Agent
import Gwems.Util.RunnablesQueue

/-!
# `ExecutionContext`: what a pooled thread knows

Messages find their server, their agent and the channel they came on in the `ExecutionContext` of
the thread that runs them (a `ThreadLocal`). Five pieces of code write to it, around code that may
throw: `Global.execute`, the loops of the three mailboxes, `ChannelSubscriberWrapper`, `gwems.Js`
and the handlers of clients. Each of them is a function from the context before to the context
after and to how it ended.

`drain` is the loop that the mailboxes share. What it leaves behind is described by what its turns
did (`Conduct`), latest turn first: whether an agent is in the context (`holdsAgent`) and whether
the context is in script mode (`jsMode`). `Describes.drain` is the induction over the loop.
-/

namespace Gwems

/-! ### Contexts and messages -/

/-- The fields of an `ExecutionContext` that the code sets. -/
structure ExecutionContext where
  global : Option ℕ := none
  subscribedChannel : Option String := none
  agent : Option Agent := none
  isJs : Bool := false
deriving DecidableEq

/-- What follows a call is executed if the call returns. -/
def andThen (r : ExecutionContext × Outcome) (f : ExecutionContext → ExecutionContext) :
    ExecutionContext × Outcome :=
  match r.2 with
  | .returns => (f r.1, .returns)
  | .exception | .error => r

/-- How `engine.eval` ends. -/
inductive EvalOutcome
  | returns
  | scriptException
  | runtimeException
  | error
deriving DecidableEq

/-- One run of a `gwems.Js`: how `getEngine` ends, how the creation of `agent.bindings` ends for an
agent that has none, and how the script ends. -/
structure Script where
  getEngine : Outcome := .returns
  createBindings : Option Outcome := none
  eval : EvalOutcome := .returns
deriving DecidableEq

/-- How `Js.run` gets to its script: the first of its two preparations that fails decides. -/
def Script.prepare (script : Script) : Outcome :=
  match script.getEngine with
  | .returns => script.createBindings.getD .returns
  | .exception => .exception
  | .error => .error

/-- `Js.run()`. -/
def Script.run (script : Script) (ec : ExecutionContext) : ExecutionContext × Outcome :=
  match ec.global, ec.agent with
  -- `ec.global.returnEngine` in the finally block has no server to call
  | none, _ => (ec, .exception)
  -- "there needs to be an Agent present"
  | some _, none => (ec, .returns)
  | some _, some _ =>
    match script.prepare with
    | .returns =>
      match script.eval with
      | .returns => ({ ec with isJs := false }, .returns)
      -- both are caught and logged, past the line that resets `isJs`
      | .scriptException | .runtimeException => ({ ec with isJs := true }, .returns)
      | .error => ({ ec with isJs := true }, .error)
    | .exception => (ec, .returns)
    | .error => (ec, .error)

/-- A message: a script, or one of those that read the context only. -/
inductive Message
  | js (script : Script)
  | other (outcome : Outcome)
deriving DecidableEq

/-- `run()` of a message. -/
def Message.run : Message → ExecutionContext → ExecutionContext × Outcome
  | .js script, ec => script.run ec
  | .other outcome, ec => (ec, outcome)

/-- What is put on mailboxes and given to `Global.execute`: a message, a message wrapped for the
`messageQ` of a subscriber, or a text for a `socketMessageQ` (`none` where it cannot be read). -/
inductive Runnable
  | message (m : Message)
  | channelSubscriberWrapper (channel : String) (agent : Agent) (runme : Message)
  | ctxWrapper (read : Option Message)
deriving DecidableEq

/-- `run()` of a message or a wrapper. -/
def Runnable.run : Runnable → ExecutionContext → ExecutionContext × Outcome
  | .message m, ec => m.run ec
  | .channelSubscriberWrapper channel agent runme, ec =>
    -- no finally block: a message that throws leaves the channel and the agent behind
    andThen (runme.run { ec with subscribedChannel := some channel, agent := some agent })
      fun ec => { ec with subscribedChannel := none, agent := none }
  -- the exceptions of `deserialize` are caught, those of the message are not
  | .ctxWrapper none, ec => (ec, .returns)
  | .ctxWrapper (some m), ec => m.run ec

/-! ### The loops of the mailboxes -/

/-- `while ((r = hasMore()) != null) try { … } catch (Exception e) { … }`, over the messages that
`hasMore` gives to one activation. -/
def drain {R : Type*} (body : R → ExecutionContext → ExecutionContext × Outcome) :
    List R → ExecutionContext → ExecutionContext × Outcome
  | [], ec => (ec, .returns)
  | r :: q, ec =>
    match body r ec with
    | (ec', .returns) | (ec', .exception) => drain body q ec'
    | (ec', .error) => (ec', .error)

/-- The turns that the loop gets to, each with the context in which it begins. -/
def turns {R : Type*} (body : R → ExecutionContext → ExecutionContext × Outcome) :
    List R → ExecutionContext → List (R × ExecutionContext)
  | [], _ => []
  | r :: q, ec =>
    (r, ec) :: match body r ec with
      | (ec', .returns) | (ec', .exception) => turns body q ec'
      | (_, .error) => []

/-- `RunnablesQueue.MyLocalRunner.run()`. -/
def localRunner (q : List Runnable) (ec : ExecutionContext) : ExecutionContext × Outcome :=
  drain Runnable.run q ec

/-- `AgentRunnablesQueue.MyAgentLocalRunner.run()`; `agent.run(r)` runs the message. -/
def agentLocalRunner (agent : Agent) (q : List Runnable) (ec : ExecutionContext) :
    ExecutionContext × Outcome :=
  drain Runnable.run q { ec with agent := some agent }

/-- The same for the `SessionAgent` of a link, on a pub/sub server: `agent.run(r)` writes the message
to the socket instead, which may throw. -/
def linkLocalRunner (agent : Agent) (writes : List Outcome) (ec : ExecutionContext) :
    ExecutionContext × Outcome :=
  drain (fun outcome ec => (ec, outcome)) writes { ec with agent := some agent }

/-- A text on a `socketMessageQ`, with whether `runSocketMessage` throws before it runs it (it
renews the session of a request that has no channel). -/
structure SocketText where
  read : Option Message
  refused : Bool := false
deriving DecidableEq

/-- `runSocketMessage(message)`. -/
def SocketText.run (text : SocketText) (ec : ExecutionContext) : ExecutionContext × Outcome :=
  if text.refused then (ec, .exception) else (Runnable.ctxWrapper text.read).run ec

/-- One turn of `SessionRunnablesQueue.MyAgentLocalRunner.run()`. -/
def sessionTurn (agent : Agent) (text : SocketText) (ec : ExecutionContext) :
    ExecutionContext × Outcome :=
  andThen (text.run { ec with agent := some agent }) fun ec => { ec with agent := none }

/-- `SessionRunnablesQueue.MyAgentLocalRunner.run()`. -/
def sessionLocalRunner (agent : Agent) (q : List SocketText) (ec : ExecutionContext) :
    ExecutionContext × Outcome :=
  drain (sessionTurn agent) q ec

/-! ### What a turn does -/

/-- What a turn of a loop does, given whether an agent is in the context when it begins: whether it
puts an agent there itself and takes it out again, how it ends, and in which mode it leaves the
context if it evaluates a script. -/
structure Conduct where
  scopes : Bool
  outcome : Bool → Outcome
  leavesJs : Bool → Option Bool

/-- How a script ends where an agent is present. -/
def Script.outcome (script : Script) : Outcome :=
  match script.prepare, script.eval with
  | .error, _ | .returns, .error => .error
  | .exception, _ | .returns, .returns | .returns, .scriptException | .returns, .runtimeException =>
    .returns

/-- Whether the context is left in script mode; `none` for a script that is not evaluated. -/
def Script.leavesJs (script : Script) : Option Bool :=
  match script.prepare with
  | .returns => some (script.eval ≠ .returns)
  | .exception | .error => none

/-- A message puts no agent into the context. A script needs one. -/
def Message.conduct : Message → Conduct
  | .js script =>
    ⟨false, fun present => if present then script.outcome else .returns,
      fun present => if present then script.leavesJs else none⟩
  | .other outcome => ⟨false, fun _ => outcome, fun _ => none⟩

theorem Message.leavesJs_of_absent (m : Message) : m.conduct.leavesJs false = none := by
  cases m <;> rfl

/-- The same around a message that runs with an agent of its own. -/
def Conduct.scope (c : Conduct) : Conduct :=
  ⟨true, fun _ => c.outcome true, fun _ => c.leavesJs true⟩

/-- What a runnable does. -/
def Runnable.conduct : Runnable → Conduct
  | .message m => m.conduct
  | .channelSubscriberWrapper _ _ runme => runme.conduct.scope
  | .ctxWrapper none => (Message.other .returns).conduct
  | .ctxWrapper (some m) => m.conduct

/-- What a turn of a session's loop does. -/
def SocketText.conduct (text : SocketText) : Conduct :=
  if text.refused then (Message.other .exception).conduct.scope
  else (Runnable.ctxWrapper text.read).conduct.scope

/-- The last turn that put an agent into the context took it out again, unless it threw. Without
such a turn the loop's own agent is there, if it has one. The latest turn comes first. -/
def holdsAgent (start : Bool) (done : List Conduct) : Bool :=
  match done.find? Conduct.scopes with
  | some c => c.outcome true ≠ .returns
  | none => start

/-- The last turn that evaluated a script decides. -/
def jsMode (start : Bool) : List Conduct → Bool
  | [] => false
  | c :: done => (c.leavesJs (holdsAgent start done)).getD (jsMode start done)

/-- The turns that the loop gets to, in front of those already done: an `Error` is the last. -/
def executed (start : Bool) (done : List Conduct) : List Conduct → List Conduct
  | [] => done
  | c :: q =>
    if c.outcome (holdsAgent start done) = .error then c :: done else executed start (c :: done) q

theorem holdsAgent_cons (start : Bool) (c : Conduct) (done : List Conduct) :
    holdsAgent start (c :: done) =
      if c.scopes then decide (c.outcome true ≠ .returns) else holdsAgent start done := by
  rw [holdsAgent]
  rw [List.find?_cons]
  cases c.scopes <;> rfl

/-! ### The description of a context -/

/-- A thread with this context has done these turns. Only where deliveries come `wrapped` can a
channel have been left, and then with an agent. -/
structure Describes (start wrapped : Bool) (done : List Conduct) (ec : ExecutionContext) : Prop where
  global_isSome : ec.global.isSome = true
  agent_isSome : ec.agent.isSome = holdsAgent start done
  of_subscribedChannel : ec.subscribedChannel.isSome = true →
    wrapped = true ∧ ec.agent.isSome = true
  isJs_eq : ec.isJs = jsMode start done

/-- What a message does to a context with a server in it. -/
theorem Message.run_eq (m : Message) {ec : ExecutionContext} (hg : ec.global.isSome = true) :
    m.run ec = ({ ec with isJs := (m.conduct.leavesJs ec.agent.isSome).getD ec.isJs },
      m.conduct.outcome ec.agent.isSome) := by
  obtain ⟨global, channel, agent, isJs⟩ := ec
  obtain ⟨g, rfl⟩ := Option.isSome_iff_exists.mp hg
  cases m with
  | other outcome => rfl
  | js script =>
    cases agent with
    | none => rfl
    | some a =>
      simp only [Message.run, Script.run, Message.conduct, Option.isSome_some, if_true,
        Script.outcome, Script.leavesJs]
      cases script.prepare with
      | exception | error => rfl
      | returns => cases script.eval <;> rfl

variable {start wrapped : Bool} {done : List Conduct} {ec : ExecutionContext}

/-- A body behaves as a conduct says, in every context that is described by what was done. -/
def Follows {R : Type*} (start wrapped : Bool)
    (body : R → ExecutionContext → ExecutionContext × Outcome) (conduct : R → Conduct) : Prop :=
  ∀ (done : List Conduct) (ec : ExecutionContext) (r : R), Describes start wrapped done ec →
    (body r ec).2 = (conduct r).outcome (holdsAgent start done) ∧
      Describes start wrapped (conduct r :: done) (body r ec).1

/-- A message leaves the agent and the channel alone. -/
theorem Describes.message (h : Describes start wrapped done ec) (m : Message) :
    (m.run ec).2 = m.conduct.outcome (holdsAgent start done) ∧
      Describes start wrapped (m.conduct :: done) (m.run ec).1 := by
  have hscopes : m.conduct.scopes = false := by cases m <;> rfl
  rw [m.run_eq h.global_isSome, ← h.agent_isSome]
  refine ⟨rfl, h.global_isSome, ?_, h.of_subscribedChannel, ?_⟩
  · rw [holdsAgent_cons, hscopes]
    exact h.agent_isSome
  · rw [jsMode, ← h.agent_isSome, ← h.isJs_eq]

/-- A turn that runs a message in the context `ec₁`, which has an agent, and resets the context
unless the message throws. Only a wrapped delivery sets the channel, and then it resets it too. -/
theorem Describes.scope (h : Describes start wrapped done ec) (m : Message)
    (ec₁ : ExecutionContext) (reset : ExecutionContext → ExecutionContext)
    (hg : ec₁.global = ec.global) (ha : ec₁.agent.isSome = true) (hjs : ec₁.isJs = ec.isJs)
    (hc : ec₁.subscribedChannel.isSome = true → wrapped = true)
    (hreset : ∀ x, (reset x).global = x.global ∧ (reset x).isJs = x.isJs ∧ (reset x).agent = none ∧
      ((reset x).subscribedChannel.isSome = true →
        wrapped = false ∧ x.subscribedChannel.isSome = true)) :
    (andThen (m.run ec₁) reset).2 = m.conduct.scope.outcome (holdsAgent start done) ∧
      Describes start wrapped (m.conduct.scope :: done) (andThen (m.run ec₁) reset).1 := by
  have hagent : holdsAgent start (m.conduct.scope :: done) =
      decide (m.conduct.outcome true ≠ .returns) := holdsAgent_cons ..
  have hjs' : jsMode start (m.conduct.scope :: done) =
      (m.conduct.leavesJs true).getD ec₁.isJs := by
    rw [hjs, h.isJs_eq]
    rfl
  have hscope : m.conduct.scope.outcome (holdsAgent start done) = m.conduct.outcome true := rfl
  have hg₁ : ec₁.global.isSome = true := hg ▸ h.global_isSome
  rw [m.run_eq hg₁, ha, hscope]
  obtain ⟨hrg, hrjs, hra, hrc⟩ :=
    hreset { ec₁ with isJs := (m.conduct.leavesJs true).getD ec₁.isJs }
  cases ho : m.conduct.outcome true with
  | returns =>
    refine ⟨rfl, (congrArg Option.isSome hrg).trans hg₁, ?_, fun hsome => ?_, hrjs.trans hjs'.symm⟩
    · rw [hagent, ho]
      exact congrArg Option.isSome hra
    · obtain ⟨hw, hsome⟩ := hrc hsome
      rw [hc hsome] at hw
      cases hw
  | exception | error =>
    refine ⟨rfl, hg₁, ?_, fun hsome => ⟨hc hsome, ha⟩, hjs'.symm⟩
    rw [hagent, ho]
    exact ha

/-- The runnables of the mailboxes of agents. -/
theorem follows_runnable (start : Bool) : Follows start true Runnable.run Runnable.conduct := by
  intro done ec r h
  cases r with
  | message m => exact h.message m
  | ctxWrapper read =>
    cases read with
    | none => exact h.message (.other .returns)
    | some m => exact h.message m
  | channelSubscriberWrapper channel agent runme =>
    exact h.scope runme { ec with subscribedChannel := some channel, agent := some agent }
      (fun ec => { ec with subscribedChannel := none, agent := none }) rfl rfl rfl (fun _ => rfl)
      fun x => ⟨rfl, rfl, rfl, fun hsome => nomatch hsome⟩

/-- The texts of a session. -/
theorem follows_sessionTurn (start : Bool) (agent : Agent) :
    Follows start false (sessionTurn agent) SocketText.conduct := by
  intro done ec text h
  have hc : ec.subscribedChannel.isSome = true → false = true :=
    fun hsome => (h.of_subscribedChannel hsome).1
  have hscope := fun m : Message => h.scope m { ec with agent := some agent }
    (fun ec => { ec with agent := none }) rfl rfl rfl hc
    fun x => ⟨rfl, rfl, rfl, fun hsome => ⟨rfl, hsome⟩⟩
  -- whatever the text is, it runs like one message
  obtain ⟨read, refused⟩ := text
  cases refused with
  | true => exact hscope (.other .exception)
  | false =>
    cases read with
    | none => exact hscope (.other .returns)
    | some m => exact hscope m

/-- The writes of a link. -/
theorem follows_write (start : Bool) :
    Follows start false (fun outcome ec => (ec, outcome)) fun o => (Message.other o).conduct :=
  fun _ _ outcome h => h.message (.other outcome)

/-! ### What a loop does -/

/-- **What a loop leaves behind** is described by the turns it got to. -/
theorem Describes.drain {R : Type*} {body : R → ExecutionContext → ExecutionContext × Outcome}
    {conduct : R → Conduct} (hbody : Follows start wrapped body conduct)
    (h : Describes start wrapped done ec) (q : List R) :
    Describes start wrapped (executed start done (q.map conduct)) (drain body q ec).1 := by
  induction q generalizing done ec with
  | nil => exact h
  | cons r q ih =>
    obtain ⟨houtcome, hnext⟩ := hbody done ec r h
    rw [List.map_cons, executed, ← houtcome, Gwems.drain]
    rcases hrun : body r ec with ⟨ec', o⟩
    rw [hrun] at hnext
    cases o with
    | returns | exception => exact ih hnext
    | error => exact hnext

end Gwems
