import Gwems.Servers.PubSubTreeSubscriptions
import Gwems.Servers.Session

/-!
# Channel names in `Subscribe` and `Publish`

`gwems.Subscribe`, `gwems.Unsubscribe`, `gwems.Publish` and `gwems.MultiPublish` each test the
length of the channel name and compare it with a reserved word, and then trim it; `Global` leaves
out what is empty then. The bounds and the words differ: `Subscribe` refuses names shorter than four
and "none", `Publish` names shorter than three and "na", which are too short anyway, though its
message says "channel name was too short, or none". So a name of three characters, and "none", can
be published on and not subscribed to.

`heard_iff_common` says that these are the only such names: what one session publishes under any
other name is delivered to every session that has subscribed under this name, in every run of the
server, or both commands are refused.

Each message runs in one step here. Sessions have keys of their own, since `getRandom` gives a new
session a key that is not in use.
-/

namespace Gwems

variable {M : Type*}

/-! ### Names -/

/-- What the message types do with a channel name: the test `channel.length() >= length &&
!word.equals(channel)`, and then `channel.trim()`. -/
def channelOf (length : ℕ) (word channel : String) : Option String :=
  if length ≤ javaLength channel ∧ channel ≠ word then some (javaTrim channel) else none

/-- The channel that `Subscribe.run` hands to `Global.subscribe`. -/
def Subscribe.channel (channel : String) : Option String := channelOf 4 "none" channel

/-- The channel that `Unsubscribe.run` hands to `Global.unsubscribe`. -/
def Unsubscribe.channel (channel : String) : Option String := channelOf 4 "none" channel

/-- The channel that `Publish.run` hands to `Global.publish`. -/
def Publish.channel (channel : String) : Option String := channelOf 3 "na" channel

/-- The channel that `MultiPublish.run` hands to `Global.publish`, for each of its names. -/
def MultiPublish.channel (channel : String) : Option String := channelOf 3 "na" channel

/-- The channel that a name denotes in the end: `Global.subscribe` and `Global.publish` refuse the
empty one. -/
def accepted (channel : Option String) : Option String :=
  channel.filter fun c => c.length ≠ 0

/-- A name that is no word reserved by one of the two, nor long enough for one of them only. -/
def IsCommon (name : String) : Prop :=
  name ≠ "none" ∧ (javaLength name = 3 → (javaTrim name).length = 0)

theorem channelOf_eq_some {length : ℕ} {word name c : String} :
    channelOf length word name = some c ↔
      length ≤ javaLength name ∧ name ≠ word ∧ javaTrim name = c := by
  rw [channelOf, Option.ite_none_right_eq_some, Option.some.injEq, and_assoc]

theorem accepted_eq_some {channel : Option String} {c : String} :
    accepted channel = some c ↔ channel = some c ∧ c.length ≠ 0 := by
  rw [accepted, Option.filter_eq_some_iff, decide_eq_true_iff]

theorem accepted_subscribe_eq_some {name c : String} :
    accepted (Subscribe.channel name) = some c ↔
      (4 ≤ javaLength name ∧ name ≠ "none" ∧ javaTrim name = c) ∧ c.length ≠ 0 := by
  rw [accepted_eq_some, Subscribe.channel, channelOf_eq_some]

/-- The reserved word of `Publish` is too short anyway. -/
theorem accepted_publish_eq_some {name c : String} :
    accepted (Publish.channel name) = some c ↔
      (3 ≤ javaLength name ∧ javaTrim name = c) ∧ c.length ≠ 0 := by
  rw [accepted_eq_some, Publish.channel, channelOf_eq_some]
  refine and_congr_left' (and_congr_right fun hlength => and_iff_right ?_)
  rintro rfl
  exact absurd hlength (by decide)

/-- What `Subscribe` accepts, `Publish` accepts. -/
theorem accepted_of_subscribe {name c : String} (h : accepted (Subscribe.channel name) = some c) :
    accepted (Publish.channel name) = some c := by
  obtain ⟨⟨hlength, -, htrim⟩, hne⟩ := accepted_subscribe_eq_some.mp h
  exact accepted_publish_eq_some.mpr ⟨⟨by omega, htrim⟩, hne⟩

/-- **The two message types accept the same names**, and take them for the same channels, apart from
the names of three characters and from "none". -/
theorem accepted_eq_iff_common (name : String) :
    accepted (Subscribe.channel name) = accepted (Publish.channel name) ↔ IsCommon name := by
  constructor
  · intro heq
    constructor
    · rintro rfl
      exact absurd heq (by decide)
    · intro hthree
      by_contra hne
      have hpublish := accepted_publish_eq_some.mpr ⟨⟨hthree.ge, rfl⟩, hne⟩
      have hsubscribe := accepted_subscribe_eq_some.mp (heq.trans hpublish)
      omega
  · rintro ⟨hnone, hthree⟩
    refine Option.ext fun c => ?_
    rw [accepted_subscribe_eq_some, accepted_publish_eq_some]
    constructor
    · rintro ⟨⟨hlength, -, htrim⟩, hne⟩
      exact ⟨⟨by omega, htrim⟩, hne⟩
    · rintro ⟨⟨hlength, rfl⟩, hne⟩
      -- a name of three characters would be blank
      have hfour : javaLength name ≠ 3 := fun h => hne (hthree h)
      exact ⟨⟨by omega, hnone, rfl⟩, hne⟩

/-! ### A server and its sessions -/

/-- The messages that a session runs, as far as channels go: `gwems.Subscribe`,
`gwems.Unsubscribe`, `d.Sub` and `d.Unsub`, then `gwems.Publish`, `gwems.MultiPublish` and
`d.Pub`. -/
inductive ChannelMessage (M : Type*)
  | socket (message : SocketMessage)
  | publish (channel : String) (msg : M)
  | multiPublish (channels : List String) (msg : M)
  | pub (c : String) (m : M)

/-- A server with its sessions. -/
structure ChatServer (M : Type*) where
  global : Global M := {}
  sessions : List Agent := []
  /-- What has been handed to the executor; `none` for a task that has run. -/
  tasks : List (Option (Task M)) := []
  /-- What has been put on the `messageQ` of each session, with the number of the task. -/
  messageQ : Agent → List (ℕ × Queued M) := fun _ => []

namespace ChatServer

/-- `new SessionAgent(this, getRandom(), ctx)`: an agent subscribes to its key. -/
def newSession (s : ChatServer M) (key : String) : ChatServer M :=
  let agent : Agent := { id := s.sessions.length, hash := key }
  { s with global := s.global.subscribe agent key, sessions := s.sessions ++ [agent] }

/-- `publish(channel, runme, log, except)`. -/
def publish (s : ChatServer M) (channel : String) (runme : M) (except : Option Agent) :
    ChatServer M :=
  let (g, tasks) := s.global.publish channel runme except
  { s with global := g, tasks := s.tasks ++ tasks.map some }

/-- `Publish.run`. -/
def runPublish (s : ChatServer M) (channel : String) (msg : M) : ChatServer M :=
  match Publish.channel channel with
  | some c => s.publish c msg none
  | none => s

/-- A turn of the loop in `MultiPublish.run`. -/
def runMultiPublish (s : ChatServer M) (channel : String) (msg : M) : ChatServer M :=
  match MultiPublish.channel channel with
  | some c => s.publish c msg none
  | none => s

/-- Run a message in the session of an agent. -/
def run (s : ChatServer M) (agent : Agent) : ChannelMessage M → ChatServer M
  | .socket message =>
    { s with global := (message.call agent).elim s.global s.global.perform }
  | .publish channel msg => s.runPublish channel msg
  | .multiPublish channels msg => channels.foldl (fun s channel => s.runMultiPublish channel msg) s
  | .pub c m => s.publish c m (some agent)

/-- The executor runs a task. -/
def execute (J : Jackson M) (s : ChatServer M) (i : ℕ) (task : Task M) : ChatServer M :=
  { s with
    tasks := s.tasks.set i none
    messageQ := match s.global.deliveries J task with
      | (agents, some queued) => agents.foldl (fun messageQ agent =>
          Function.update messageQ agent (messageQ agent ++ [(i, queued)])) s.messageQ
      | (_, none) => s.messageQ }

/-- What can happen next: a session is made, with the key that `getRandom` gives, or runs a message,
or expires, a message comes down from the parent, or the executor runs a task. -/
inductive Action (M : Type*)
  | newSession (key : String)
  | run (j : ℕ) (message : ChannelMessage M)
  | expire (j : ℕ)
  | handle (channel str : String)
  | execute (i : ℕ)

/-- Sessions and tasks in any order. -/
def machine (J : Jackson M) : Machine (ChatServer M) (Action M) where
  step s
    | .newSession key =>
      if ∀ agent ∈ s.sessions, agent.hash ≠ key then some (s.newSession key) else none
    | .run j message => s.sessions[j]?.map fun agent => s.run agent message
    | .expire j => s.sessions[j]?.map fun agent =>
        { s with global := s.global.unsubscribeAgent agent }
    | .handle channel str => some { s with tasks := s.tasks ++ [some (.handle channel str)] }
    | .execute i => s.tasks[i]?.bind fun task => task.map fun task => s.execute J i task

/-- A server before its first session. -/
def start (isPubSub : Bool) (thePubSub : Option (List (Command M))) : ChatServer M where
  global := { isPubSub := isPubSub, thePubSub := thePubSub }

variable {J : Jackson M} {s t u v : ChatServer M} {name c : String} {m : M} {i j k : ℕ}
  {a agent : Agent} {call : SubscriptionCall} {action : Action M}

/-! ### Steps -/

/-- The agents, the subscriptions and the queues are as before, and tasks may have been added. -/
structure Quiet (s t : ChatServer M) : Prop where
  sessions : t.sessions = s.sessions
  session2channel : t.global.session2channel = s.global.session2channel
  isPubSub : t.global.isPubSub = s.global.isPubSub
  messageQ : t.messageQ = s.messageQ
  tasks : ∃ tasks, t.tasks = s.tasks ++ tasks

theorem Quiet.refl (s : ChatServer M) : Quiet s s :=
  ⟨rfl, rfl, rfl, rfl, [], (List.append_nil _).symm⟩

theorem Quiet.trans (h : Quiet s t) (h' : Quiet t u) : Quiet s u := by
  obtain ⟨tasks, htasks⟩ := h.tasks
  obtain ⟨tasks', htasks'⟩ := h'.tasks
  refine ⟨h'.sessions.trans h.sessions, h'.session2channel.trans h.session2channel,
    h'.isPubSub.trans h.isPubSub, h'.messageQ.trans h.messageQ, tasks ++ tasks', ?_⟩
  rw [htasks', htasks, List.append_assoc]

theorem quiet_publish (s : ChatServer M) (channel : String) (runme : M) (except : Option Agent) :
    Quiet s (s.publish channel runme except) := by
  by_cases hlength : channel.length = 0
  · rw [publish, Global.publish, if_pos hlength]
    exact ⟨rfl, rfl, rfl, rfl, [], rfl⟩
  · rw [publish, Global.publish, if_neg hlength]
    exact ⟨rfl, rfl, rfl, rfl, _, rfl⟩

theorem quiet_runPublish (s : ChatServer M) (channel : String) (msg : M) :
    Quiet s (s.runPublish channel msg) := by
  rw [runPublish]
  split
  next c _ => exact quiet_publish s c msg none
  next => exact .refl s

/-- `MultiPublish` makes the test of `Publish`. -/
theorem runMultiPublish_eq (s : ChatServer M) (channel : String) (msg : M) :
    s.runMultiPublish channel msg = s.runPublish channel msg := rfl

theorem quiet_multiPublish (channels : List String) (msg : M) (s : ChatServer M) :
    Quiet s (channels.foldl (fun s channel => s.runMultiPublish channel msg) s) := by
  induction channels generalizing s with
  | nil => exact .refl s
  | cons channel channels ih =>
    rw [List.foldl_cons, runMultiPublish_eq]
    exact (quiet_runPublish s channel msg).trans (ih _)

/-- What a step does. -/
inductive Moves (J : Jackson M) (s : ChatServer M) : Action M → ChatServer M → Prop
  | newSession {key : String} (hkey : ∀ agent ∈ s.sessions, agent.hash ≠ key) :
      Moves J s (.newSession key) (s.newSession key)
  | expire {j : ℕ} {agent : Agent} (hj : s.sessions[j]? = some agent) :
      Moves J s (.expire j) { s with global := s.global.perform (.unsubscribeAgent agent) }
  | calls {j : ℕ} {agent : Agent} {message : SocketMessage} {call : SubscriptionCall}
      (hj : s.sessions[j]? = some agent) (hcall : message.call agent = some call) :
      Moves J s (.run j (.socket message)) { s with global := s.global.perform call }
  | quiet {action : Action M} {t : ChatServer M} (hquiet : Quiet s t) : Moves J s action t
  | executes {i : ℕ} {task : Task M} (hi : s.tasks[i]? = some (some task)) :
      Moves J s (.execute i) (s.execute J i task)

/-- The inversion of a step. -/
theorem step_cases (hst : (machine J).step s action = some t) : Moves J s action t := by
  cases action with
  | newSession key =>
    simp only [machine] at hst
    split at hst
    next hkey => cases hst; exact .newSession hkey
    next => cases hst
  | run j message =>
    obtain ⟨agent, hj, rfl⟩ := Option.map_eq_some_iff.mp hst
    cases message with
    | socket message =>
      cases hcall : message.call agent with
      | some call =>
        rw [run, hcall]
        exact .calls hj hcall
      | none =>
        rw [run, hcall]
        exact .quiet (.refl s)
    | publish channel msg => exact .quiet (quiet_runPublish s channel msg)
    | multiPublish channels msg => exact .quiet (quiet_multiPublish channels msg s)
    | pub c m => exact .quiet (quiet_publish s c m _)
  | expire j =>
    obtain ⟨agent, hj, rfl⟩ := Option.map_eq_some_iff.mp hst
    exact .expire hj
  | handle channel str =>
    cases hst
    exact .quiet ⟨rfl, rfl, rfl, rfl, _, rfl⟩
  | execute i =>
    obtain ⟨task?, hi, hst⟩ := Option.bind_eq_some_iff.mp hst
    obtain ⟨task, rfl, rfl⟩ := Option.map_eq_some_iff.mp hst
    exact .executes hi

/-- The calls of a message are about the agent that runs it. -/
theorem call_agent {message : SocketMessage} (hcall : message.call agent = some call) :
    call.agent = agent := by
  cases message with
  | subscribe channel =>
    obtain ⟨-, hcall⟩ := Option.ite_none_right_eq_some.mp hcall
    cases hcall
    rfl
  | unsubscribe channel =>
    obtain ⟨-, hcall⟩ := Option.ite_none_right_eq_some.mp hcall
    cases hcall
    rfl
  | sub c => cases hcall; rfl
  | unsub channel => cases hcall; rfl
  | other => cases hcall

/-! ### Subscriptions of sessions -/

/-- The sessions have keys of their own, and what has a key of its own is separate in
`session2channel`. -/
structure Tidy (s : ChatServer M) : Prop where
  keys : (s.sessions.map Agent.hash).Nodup
  separate : ∀ a : Agent, (∀ b ∈ s.sessions, b.hash = a.hash → b = a) →
    s.global.session2channel.Separate a

theorem Tidy.own (h : s.Tidy) (ha : a ∈ s.sessions) :
    ∀ b ∈ s.sessions, b.hash = a.hash → b = a :=
  fun _ hb hkey => List.inj_on_of_nodup_map h.keys hb ha hkey

/-- A call of a session. -/
theorem Tidy.perform (h : s.Tidy) (hj : s.sessions[j]? = some agent) (hcall : call.agent = agent) :
    Tidy { s with global := s.global.perform call } where
  keys := h.keys
  separate a ha := by
    refine Global.separate_perform call (h.separate a ha) fun hkey => ?_
    rw [hcall] at hkey ⊢
    exact ha agent (List.mem_of_getElem? hj) hkey

theorem Tidy.newSession (h : s.Tidy) {key : String}
    (hkey : ∀ agent ∈ s.sessions, agent.hash ≠ key) : (s.newSession key).Tidy where
  keys := by
    change ((s.sessions ++ [_]).map Agent.hash).Nodup
    rw [List.map_append, List.map_singleton, List.nodup_append]
    refine ⟨h.keys, List.nodup_singleton _, fun x hx y hy => ?_⟩
    obtain ⟨agent, hagent, rfl⟩ := List.mem_map.mp hx
    rw [List.mem_singleton.mp hy]
    exact hkey agent hagent
  separate a ha := by
    have ha' : ∀ b ∈ s.sessions, b.hash = a.hash → b = a :=
      fun b hb => ha b (List.mem_append_left _ hb)
    exact Global.separate_perform (.subscribe _ key) (h.separate a ha')
      (ha _ (List.mem_append_right _ (List.mem_singleton_self _)))

theorem Tidy.of_quiet (h : s.Tidy) (hquiet : Quiet s t) : t.Tidy where
  keys := by
    rw [hquiet.sessions]
    exact h.keys
  separate := by
    rw [hquiet.sessions, hquiet.session2channel]
    exact h.separate

/-- The step lemma. -/
theorem Tidy.step (h : s.Tidy) (hst : (machine J).step s action = some t) : t.Tidy := by
  cases step_cases hst with
  | newSession hkey => exact h.newSession hkey
  | expire hj => exact h.perform hj rfl
  | calls hj hcall => exact h.perform hj (call_agent hcall)
  | quiet hquiet => exact h.of_quiet hquiet
  | executes => exact ⟨h.keys, h.separate⟩

/-- The channel that a message unsubscribes its session from. -/
def unsubscribes : SocketMessage → Option String
  | .unsubscribe channel => Unsubscribe.channel channel
  | .unsub channel => some channel
  | .subscribe _ | .sub _ | .other => none

/-- The session does not unsubscribe from the channel, and does not expire. -/
def Stays (j : ℕ) (c : String) (_ : ChatServer M) : Action M → Prop
  | .run k (.socket message) => k = j → unsubscribes message ≠ some c
  | .expire k => k ≠ j
  | .run _ _ | .newSession _ | .handle _ _ | .execute _ => True

theorem unsubscribes_of_call {message : SocketMessage}
    (hcall : message.call agent = some (.unsubscribe a c)) : unsubscribes message = some c := by
  cases message with
  | subscribe channel =>
    obtain ⟨-, hcall⟩ := Option.ite_none_right_eq_some.mp hcall
    cases hcall
  | unsubscribe channel =>
    obtain ⟨htest, hcall⟩ := Option.ite_none_right_eq_some.mp hcall
    cases hcall
    exact channelOf_eq_some.mpr ⟨htest.1, htest.2, rfl⟩
  | sub c => cases hcall
  | unsub channel => cases hcall; rfl
  | other => cases hcall

/-- Session `j` is subscribed to a channel. -/
structure Listens (s : ChatServer M) (j : ℕ) (a : Agent) (c : String) : Prop where
  tidy : s.Tidy
  session : s.sessions[j]? = some a
  mem : a ∈ s.global.subscribers c

/-- A call of a session that does not take the subscription away. -/
theorem Listens.perform (h : s.Listens j a c) (hk : s.sessions[k]? = some agent)
    (hcall : call.agent = agent) (hstays : call.effect a c true = true) :
    Listens { s with global := s.global.perform call } j a c := by
  have ha : a ∈ s.sessions := List.mem_of_getElem? h.session
  have hown := h.tidy.own ha
  refine ⟨h.tidy.perform hk hcall, h.session, ?_⟩
  refine (Global.mem_subscribers_perform (h.tidy.separate a hown) fun hkey => ?_).mpr ?_
  · rw [hcall] at hkey ⊢
    exact hown agent (List.mem_of_getElem? hk) hkey
  · rwa [decide_eq_true h.mem]

/-- A session listens after it has subscribed. -/
theorem Tidy.listens (h : s.Tidy) (hj : s.sessions[j]? = some a) (hc : c.length ≠ 0) :
    Listens { s with global := s.global.perform (.subscribe a c) } j a c := by
  refine ⟨h.perform hj rfl, hj, ?_⟩
  have hsep := h.separate a (h.own (List.mem_of_getElem? hj))
  change a ∈ (s.global.perform (.subscribe a c)).subscribers c
  rw [Global.mem_subscribers_perform hsep fun _ => rfl]
  simp [SubscriptionCall.effect, hc]

/-- Two sessions are two agents. -/
theorem Tidy.session_inj (h : s.Tidy) (hj : s.sessions[j]? = some a)
    (hk : s.sessions[k]? = some a) : k = j := by
  have hlt : k < s.sessions.length := (List.getElem?_eq_some_iff.mp hk).1
  exact (List.getElem?_inj hlt h.keys.of_map).mp (hk.trans hj.symm)

/-- The step lemma. -/
theorem Listens.step (h : s.Listens j a c) (hstays : Stays j c s action)
    (hst : (machine J).step s action = some t) : t.Listens j a c := by
  have ha : a ∈ s.sessions := List.mem_of_getElem? h.session
  have htidy := h.tidy.step hst
  cases step_cases hst with
  | @newSession key hkey =>
    refine ⟨htidy, ?_, ?_⟩
    · exact (List.getElem?_append_left (List.getElem?_eq_some_iff.mp h.session).1).trans h.session
    · change a ∈ (s.global.perform (.subscribe ⟨s.sessions.length, key⟩ key)).subscribers c
      have hsep := h.tidy.separate a (h.tidy.own ha)
      refine (Global.mem_subscribers_perform hsep fun heq => ?_).mpr ?_
      · exact absurd (Eq.symm heq) (hkey a ha)
      · simp [SubscriptionCall.effect, h.mem]
  | expire hk =>
    refine h.perform hk rfl ?_
    rw [SubscriptionCall.effect, Bool.true_and, decide_eq_true_iff]
    rintro rfl
    exact hstays (h.tidy.session_inj h.session hk)
  | @calls k agent message call hk hcall =>
    refine h.perform hk (call_agent hcall) ?_
    cases call with
    | subscribe b d => rw [SubscriptionCall.effect, Bool.true_or]
    | unsubscribe b d =>
      rw [SubscriptionCall.effect, Bool.true_and, Bool.not_eq_true', Bool.and_eq_false_iff,
        decide_eq_false_iff_not, decide_eq_false_iff_not, ← not_and_or]
      rintro ⟨rfl, rfl⟩
      obtain rfl : b = agent := call_agent hcall
      exact hstays (h.tidy.session_inj h.session hk) (unsubscribes_of_call hcall)
    | unsubscribeAgent b =>
      -- no message makes this call
      cases message with
      | subscribe channel => cases (Option.ite_none_right_eq_some.mp hcall).2
      | unsubscribe channel => cases (Option.ite_none_right_eq_some.mp hcall).2
      | sub c => cases hcall
      | unsub channel => cases hcall
      | other => cases hcall
  | quiet hquiet =>
    refine ⟨htidy, hquiet.sessions ▸ h.session, ?_⟩
    rw [Global.mem_subscribers, hquiet.session2channel]
    exact Global.mem_subscribers.mp h.mem
  | executes => exact ⟨htidy, h.session, h.mem⟩

/-! ### Tasks -/

/-- What the task of a `publish` puts on the queues. -/
def queued (J : Jackson M) (isPubSub : Bool) (channel : String) (m : M) : Queued M :=
  if isPubSub then .p2c (J.serialize m) channel else .wrapper channel m

/-- Nothing is left to do in a task. -/
def HasRun (s : ChatServer M) (i : ℕ) : Prop := s.tasks[i]?.join = none

theorem mem_foldl_put {e e' : ℕ × Queued M} (agents : List Agent)
    (messageQ : Agent → List (ℕ × Queued M)) :
    e' ∈ (agents.foldl (fun messageQ agent =>
        Function.update messageQ agent (messageQ agent ++ [e])) messageQ) a ↔
      e' ∈ messageQ a ∨ a ∈ agents ∧ e' = e := by
  induction agents generalizing messageQ with
  | nil => simp
  | cons agent agents ih =>
    rw [List.foldl_cons, ih, Function.update_apply]
    split
    next heq => subst heq; simp; tauto
    next hne => simp [hne]

/-- What is on a queue after a task. -/
theorem mem_messageQ_execute {task : Task M} {e : ℕ × Queued M} :
    e ∈ (s.execute J i task).messageQ a ↔ e ∈ s.messageQ a ∨
      a ∈ (s.global.deliveries J task).1 ∧ ∃ q ∈ (s.global.deliveries J task).2, e = (i, q) := by
  rw [execute]
  split
  next agents q htask =>
    rw [htask, mem_foldl_put]
    simp
  next agents htask => simp [htask]

/-- The task of a `publish` of nobody's link is for all subscribers. -/
theorem deliveries_publish (J : Jackson M) (g : Global M) (c : String) (m : M) :
    g.deliveries J (.publish c m none) =
      ((g.subscribers c).elems, some (queued J g.isPubSub c m)) := by
  rw [Global.deliveries, queued]
  split
  next =>
    have hall : (g.subscribers c).elems.filter (fun agent => some agent ≠ none) =
        (g.subscribers c).elems := List.filter_eq_self.mpr fun _ _ => rfl
    rw [hall]
  next => rfl

/-- The task is still to run, or its message is on the queue of the session. -/
structure Addressed (J : Jackson M) (s : ChatServer M) (i j : ℕ) (a : Agent) (c : String)
    (m : M) : Prop where
  listens : s.Listens j a c
  task : s.tasks[i]? = some (some (.publish c m none)) ∨
    (i, queued J s.global.isPubSub c m) ∈ s.messageQ a

/-- The step lemma. -/
theorem Addressed.step (h : s.Addressed J i j a c m) (hstays : Stays j c s action)
    (hst : (machine J).step s action = some t) : t.Addressed J i j a c m := by
  refine ⟨h.listens.step hstays hst, ?_⟩
  cases step_cases hst with
  | newSession =>
    change _ ∨ (i, queued J (s.global.perform (.subscribe _ _)).isPubSub c m) ∈ s.messageQ a
    rw [Global.perform_isPubSub]
    exact h.task
  | expire => rw [Global.perform_isPubSub]; exact h.task
  | calls => rw [Global.perform_isPubSub]; exact h.task
  | quiet hquiet =>
    obtain ⟨tasks, htasks⟩ := hquiet.tasks
    rw [hquiet.isPubSub, hquiet.messageQ, htasks]
    refine h.task.imp_left fun hi => ?_
    rw [List.getElem?_append_left (List.getElem?_eq_some_iff.mp hi).1, hi]
  | @executes k task hk =>
    rcases h.task with hi | hmem
    · by_cases hki : k = i
      · -- the turn of the task
        subst hki
        obtain rfl := Option.some.inj (Option.some.inj (hi.symm.trans hk))
        refine .inr (mem_messageQ_execute.mpr (.inr ?_))
        rw [deliveries_publish]
        exact ⟨h.listens.mem, _, rfl, rfl⟩
      · exact .inl ((List.getElem?_set_ne hki).trans hi)
    · exact .inr (mem_messageQ_execute.mpr (.inl hmem))

/-! ### Two sessions -/

/-- `Subscribe.run`: `Global.subscribe` tests the name once more. -/
theorem run_subscribe (s : ChatServer M) (a : Agent) (name : String) :
    s.run a (.socket (.subscribe name)) =
      match accepted (Subscribe.channel name) with
      | some c => { s with global := s.global.perform (.subscribe a c) }
      | none => s := by
  have hcall : (SocketMessage.subscribe name).call a =
      (Subscribe.channel name).map (.subscribe a) := by
    rw [SocketMessage.call, Subscribe.channel, channelOf]
    split <;> rfl
  rw [run, hcall]
  cases hchannel : Subscribe.channel name with
  | none => rfl
  | some c =>
    rw [accepted, Option.filter_some]
    by_cases hc : c.length = 0
    · have hsame : s.global.perform (.subscribe a c) = s.global :=
        Global.subscribe_of_length_eq_zero hc
      simp only [hc, ne_eq, not_true, decide_false, Option.map_some, Option.elim_some, hsame]
      rfl
    · simp only [hc, ne_eq, not_false_iff, decide_true, if_true, Option.map_some, Option.elim_some]

/-- `Publish.run`: `Global.publish` tests the name once more. -/
theorem runPublish_eq (s : ChatServer M) (name : String) (m : M) :
    s.runPublish name m =
      match accepted (Publish.channel name) with
      | some c => { s with
          global := s.global.enqueue (.pub c m)
          tasks := s.tasks ++ [some (.publish c m none)] }
      | none => s := by
  rw [runPublish]
  cases hchannel : Publish.channel name with
  | none => rfl
  | some c =>
    change s.publish c m none = _
    rw [accepted, Option.filter_some]
    by_cases hc : c.length = 0
    · simp [publish, Global.publish, hc]
    · simp [publish, Global.publish, hc]

/-- **What a claim about two sessions says.** Session `j` runs `Subscribe(name)` and later, without
having unsubscribed from the channel, session `k` runs `Publish(name, m)`. Then the task of the
publish can be run, and however it is run, the message is put on the `messageQ` of session `j`; or
both commands are refused. -/
def Heard (J : Jackson M) (name : String) (m : M) : Prop :=
  ∀ (isPubSub : Bool) (thePubSub : Option (List (Command M))) (s t u v : ChatServer M) (j k : ℕ)
    (a : Agent), (machine J).Reaches (start isPubSub thePubSub) s → s.sessions[j]? = some a →
    (machine J).step s (.run j (.socket (.subscribe name))) = some t →
    (machine J).Runs (Stays j (javaTrim name)) t u →
    (machine J).step u (.run k (.publish name m)) = some v →
    (∃ w, (machine J).Runs (Stays j (javaTrim name)) v w ∧ w.HasRun u.tasks.length) ∧
    ∀ w, (machine J).Runs (Stays j (javaTrim name)) v w → w.HasRun u.tasks.length →
      (u.tasks.length, queued J w.global.isPubSub (javaTrim name) m) ∈ w.messageQ a ∨
        accepted (Subscribe.channel name) = none ∧ accepted (Publish.channel name) = none

/-- A task can always be run. -/
theorem exists_hasRun (s : ChatServer M) (i j : ℕ) (c : String) :
    ∃ t, (machine J).Runs (Stays j c) s t ∧ t.HasRun i := by
  cases hi : s.tasks[i]? with
  | none => exact ⟨s, .refl, by rw [HasRun, hi]; rfl⟩
  | some task =>
    cases task with
    | none => exact ⟨s, .refl, by rw [HasRun, hi]; rfl⟩
    | some task =>
      have hst : (machine J).step s (.execute i) = some (s.execute J i task) := by
        simp [machine, hi]
      have hstays : Stays j c s (.execute i) := trivial
      refine ⟨s.execute J i task, .tail .refl hstays hst, ?_⟩
      have hnone : (s.execute J i task).tasks[i]? = some none :=
        List.getElem?_set_self (List.getElem?_eq_some_iff.mp hi).1
      rw [HasRun, hnone]
      rfl

theorem tidy_start (isPubSub : Bool) (thePubSub : Option (List (Command M))) :
    (start isPubSub thePubSub).Tidy :=
  ⟨List.nodup_nil, fun _ _ => SessionMap.separate_empty⟩

/-- Under a common name the message gets there. -/
theorem heard_of_common (J : Jackson M) (m : M) (h : IsCommon name) : Heard J name m := by
  intro isPubSub thePubSub s t u v j k a hs hj hst htu huv
  refine ⟨exists_hasRun v _ _ _, fun w hvw hrun => ?_⟩
  cases hpublish : accepted (Publish.channel name) with
  | none => exact .inr ⟨((accepted_eq_iff_common name).mpr h).trans hpublish, rfl⟩
  | some c =>
    have hsubscribe := ((accepted_eq_iff_common name).mpr h).trans hpublish
    obtain ⟨⟨-, rfl⟩, hc⟩ := accepted_publish_eq_some.mp hpublish
    have htidy : s.Tidy := hs.invariant (fun h hst => h.step hst) (tidy_start _ _)
    -- the session listens after its `Subscribe`
    have ht : t = { s with global := s.global.perform (.subscribe a (javaTrim name)) } := by
      obtain ⟨agent, hagent, rfl⟩ := Option.map_eq_some_iff.mp hst
      obtain rfl := Option.some.inj (hj.symm.trans hagent)
      rw [run_subscribe, hsubscribe]
    have hlistens : t.Listens j a (javaTrim name) := ht ▸ htidy.listens hj hc
    have hlistens : u.Listens j a (javaTrim name) :=
      htu.invariant (I := fun u => u.Listens j a (javaTrim name))
        (fun hstays h hst => h.step hstays hst) hlistens
    -- the task of the `Publish`
    have haddressed : v.Addressed J u.tasks.length j a (javaTrim name) m := by
      have hstays : Stays j (javaTrim name) u (.run k (.publish name m)) := trivial
      refine ⟨hlistens.step hstays huv, .inl ?_⟩
      obtain ⟨agent, -, rfl⟩ := Option.map_eq_some_iff.mp huv
      rw [run, runPublish_eq, hpublish]
      exact List.getElem?_concat_length
    have haddressed : w.Addressed J u.tasks.length j a (javaTrim name) m :=
      hvw.invariant (I := fun w => w.Addressed J u.tasks.length j a (javaTrim name) m)
        (fun hstays h hst => h.step hstays hst) haddressed
    rcases haddressed.task with hi | hmem
    · rw [HasRun, hi] at hrun
      cases hrun
    · exact .inl hmem

/-- A name on which the two message types disagree: two sessions, one refused `Subscribe`, and a
`Publish` that is delivered to nobody. -/
theorem not_heard (J : Jackson M) (m : M) (h : ¬IsCommon name) : ¬Heard J name m := by
  intro hheard
  obtain ⟨hsubscribe, c, hpublish⟩ : accepted (Subscribe.channel name) = none ∧
      ∃ c, accepted (Publish.channel name) = some c := by
    rw [← accepted_eq_iff_common] at h
    cases hsubscribe : accepted (Subscribe.channel name) with
    | some c => exact absurd (hsubscribe.trans (accepted_of_subscribe hsubscribe).symm) h
    | none =>
      refine ⟨rfl, Option.ne_none_iff_exists'.mp fun hnone => h ?_⟩
      rw [hsubscribe, hnone]
  -- neither key is the name of the channel
  have hone : c ++ "1" ≠ c := by simp
  have htwo : c ++ "2" ≠ c := by simp
  have hkeys : c ++ "1" ≠ c ++ "2" := by simp
  let a : Agent := ⟨0, c ++ "1"⟩
  let b : Agent := ⟨1, c ++ "2"⟩
  let s : ChatServer M := ((start false none).newSession (c ++ "1")).newSession (c ++ "2")
  have hs : (machine J).run (start false none)
      [.newSession (c ++ "1"), .newSession (c ++ "2")] = some s := by
    simp [Machine.run, machine, start, newSession, hkeys, s]
  have hsame : (machine J).step s (.run 0 (.socket (.subscribe name))) = some s := by
    change some (s.run a (.socket (.subscribe name))) = some s
    rw [run_subscribe, hsubscribe]
  let task : Task M := .publish c m none
  let v : ChatServer M := { s with global := s.global.enqueue (.pub c m), tasks := [some task] }
  have hv : (machine J).step s (.run 1 (.publish name m)) = some v := by
    change some (s.runPublish name m) = some v
    rw [runPublish_eq, hpublish]
    rfl
  have hw : (machine J).step v (.execute 0) = some (v.execute J 0 task) := rfl
  have hnobody : a ∉ v.global.subscribers c := by
    intro hmem
    change a ∈ ((Global.subscribe {} a (c ++ "1")).subscribe b (c ++ "2")).subscribers c at hmem
    rw [Global.mem_subscribers_subscribe (by simp), Global.mem_subscribers_subscribe (by simp),
      Global.mem_subscribers] at hmem
    rcases hmem with (hempty | ⟨heq, -⟩) | ⟨heq, -⟩
    · exact TwoWayMapping.not_mem_items_empty hempty
    · exact hone heq.symm
    · exact htwo heq.symm
  obtain ⟨-, hdelivered⟩ := hheard false none s s s v 0 1 a (.of_run hs) rfl hsame .refl hv
  have hstays : Stays 0 (javaTrim name) v (.execute 0) := trivial
  rcases hdelivered _ (.tail .refl hstays hw) rfl with hmem | ⟨-, hrefused⟩
  · rcases mem_messageQ_execute.mp hmem with hnone | ⟨hagent, -⟩
    · cases hnone
    · rw [deliveries_publish] at hagent
      exact hnobody hagent
  · rw [hpublish] at hrefused
    cases hrefused

/-- Messages that are written as themselves. -/
def plainText : Jackson String where
  serialize := id
  deserialize := some
  deserialize_serialize _ := rfl

end ChatServer

end Gwems
