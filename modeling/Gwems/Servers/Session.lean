import Gwems.Servers.Upstream
import Gwems.Util.RunnablesQueue
import Gwems.Util.TimeoutCache

/-!
# Sessions: subscriptions against expiry

A message from a web socket or an HTTP request reaches a server through a `SessionAgent`. The
agent is put into the `timeoutCache` with a callback that unsubscribes it ("Super important. We
don't want the subscriptions to leak."), the message goes to the agent's `socketMessageQ`, and
some pool thread runs it later. This module composes the three parts, the subscriptions of
`Gwems.Servers.Upstream`, the mailbox of `Gwems.Util.RunnablesQueue` and the cache of
`Gwems.Util.TimeoutCache`, with the handlers for frames and requests in between.

Nothing orders the callback against the messages that are queued, so a `Subscribe` can run
after the cleanup, and the subscription stays (`subscription_leaks`: an HTTP session lives for
one millisecond). `no_subscription_leak` is what is left: in every run in which no thread adds a
subscription for an agent whose cleanup has removed it already, a completed cleanup has left
nothing behind.

The invariant is `Cleaned`. It needs that callbacks belong to sessions that exist, so that a new
agent, which subscribes to its own key, is not one that has been cleaned up.
-/

namespace Gwems

variable {M : Type*}

/-! ### Messages and sessions -/

/-- `String.length()`: the number of UTF-16 code units. -/
def javaLength (s : String) : ℕ := (s.toList.map fun c => if c.val < 0x10000 then 1 else 2).sum

/-- `String.trim()`. -/
def javaTrim (s : String) : String :=
  .ofList (((s.toList.dropWhile (· ≤ ' ')).reverse.dropWhile (· ≤ ' ')).reverse)

theorem length_le_javaLength (s : String) : s.length ≤ javaLength s := by
  have hone : ∀ n ∈ s.toList.map fun c => if c.val < 0x10000 then 1 else 2, 1 ≤ n := by
    intro n hn
    obtain ⟨c, -, rfl⟩ := List.mem_map.mp hn
    split <;> decide
  have hlength := List.length_le_sum_of_one_le _ hone
  rwa [List.length_map, String.length_toList] at hlength

/-- A string that neither starts nor ends with a blank is not trimmed. -/
theorem javaTrim_eq_self {s : String} {c d : Char} {l : List Char}
    (hs : s.toList = c :: (l ++ [d])) (hc : ¬ c ≤ ' ') (hd : ¬ d ≤ ' ') : javaTrim s = s := by
  rw [javaTrim, hs, List.dropWhile_cons_of_neg (by simpa using hc), ← List.cons_append,
    List.reverse_append, List.reverse_singleton, List.singleton_append,
    List.dropWhile_cons_of_neg (by simpa using hd), List.reverse_cons, List.reverse_reverse,
    List.cons_append, ← hs, String.ofList_toList]

/-- The messages of a `socketMessageQ`, as far as they differ in what they do to subscriptions:
`gwems.Subscribe`, `gwems.Unsubscribe`, `d.Sub`, `d.Unsub`, and any other. -/
inductive SocketMessage
  | subscribe (channel : String)
  | unsubscribe (channel : String)
  | sub (c : String)
  | unsub (channel : String)
  | other
deriving DecidableEq

/-- What running a message calls on the server. -/
def SocketMessage.call (agent : Agent) : SocketMessage → Option SubscriptionCall
  | .subscribe channel =>
    if 4 ≤ javaLength channel ∧ channel ≠ "none" then some (.subscribe agent (javaTrim channel))
    else none
  | .unsubscribe channel =>
    if 4 ≤ javaLength channel ∧ channel ≠ "none" then some (.unsubscribe agent (javaTrim channel))
    else none
  | .sub c => some (.subscribe agent c)
  | .unsub channel => some (.unsubscribe agent channel)
  | .other => none

/-- Where the thread of a message starts. -/
def SocketMessage.thread (agent : Agent) (message : SocketMessage) : Thread :=
  (message.call agent).elim .returned .start

/-- A `SessionAgent`: its channel context (null for HTTP), its mailbox, and where the message that
the mailbox executes is (`none` before `runSocketMessage`). -/
structure SessionAgent where
  agent : Agent
  ctx : Option ℕ
  next10sec : ℤ
  socketMessageQ : RunnablesQueue SocketMessage := {}
  running : Option Thread := none

/-- The expiry callback registered for an agent. -/
structure ExpiryCallback where
  agent : Agent
  ctx : Option ℕ
deriving DecidableEq

/-- A callback that a pool task has started: where its `unsubscribeAgent` is, and whether it has
done the rest and completed. -/
structure Cleanup where
  callback : ExpiryCallback
  task : ℕ
  thread : Thread
  completed : Bool := false
deriving DecidableEq

/-- The parts of a server that take part in the life of a session. -/
structure SessionServer (M : Type*) where
  global : Global M := {}
  timeoutCache : TimeoutCache Agent ExpiryCallback := {}
  sessions : List SessionAgent := []
  /-- The "session" attribute of each channel context. -/
  attr : ℕ → Option String := fun _ => none
  /-- Messages between `almost_private_EnsureSessionAgent` and `socketMessageQ.run`, each with the
  number of its session. -/
  arriving : List (ℕ × SocketMessage) := []
  cleanups : List Cleanup := []

namespace SessionServer

/-! ### The handlers -/

/-- `new SessionAgent(this, getRandom(), ctx)` and the `timeoutCache.put` behind it. The
constructor of `Agent` subscribes the agent to its key. -/
def newSession (s : SessionServer M) (key : String) (ctx : Option ℕ) (ttl : ℤ) :
    SessionServer M :=
  let agent : Agent := { id := s.sessions.length, hash := key }
  { s with
    global := s.global.subscribe agent key
    timeoutCache := s.timeoutCache.put key (some agent) ttl [{ agent := agent, ctx := ctx }]
    sessions := s.sessions ++
      [{ agent := agent, ctx := ctx, next10sec := s.timeoutCache.now + 10 * 1000 }] }

/-- `almost_private_EnsureSessionAgent(ctx)`, with the key that `getRandom` gives; the number of
the session. Without an entry in the cache it throws a `NullPointerException`. -/
def ensureSessionAgent (s : SessionServer M) (sessionTtl : ℤ) (ctx : ℕ) (key : String) :
    Option (SessionServer M × ℕ) :=
  match s.attr ctx with
  | none =>
    let s' := s.newSession key (some ctx) sessionTtl
    some ({ s' with attr := Function.update s'.attr ctx (some key) }, s.sessions.length)
  | some key => (s.timeoutCache.get key).map fun agent => (s, agent.id)

/-- `executeChannelMessage(ctx, message)` up to the call of `socketMessageQ.run`. -/
def executeChannelMessage (s : SessionServer M) (sessionTtl : ℤ) (ctx : ℕ) (key : String)
    (message : SocketMessage) : SessionServer M :=
  match s.ensureSessionAgent sessionTtl ctx key with
  | some (s', j) => { s' with arriving := s'.arriving ++ [(j, message)] }
  | none => s

/-- `executeHttpMessage(message)` up to the call of `socketMessageQ.run`. -/
def executeHttpMessage (s : SessionServer M) (key : String) (message : SocketMessage) :
    SessionServer M :=
  let s' := s.newSession key none 1
  { s' with arriving := s'.arriving ++ [(s.sessions.length, message)] }

/-- A `CloseWebSocketFrame`: "run all the closing routines asap". -/
def closeFrame (s : SessionServer M) (ctx : ℕ) : SessionServer M :=
  match s.attr ctx with
  | some key => { s with timeoutCache := s.timeoutCache.setTtl key 0 }
  | none => s

/-- Change one session. -/
def setSession (s : SessionServer M) (j : ℕ) (session : SessionAgent) : SessionServer M :=
  { s with sessions := s.sessions.set j session }

/-- `runSocketMessage(message)` of session `j`: every ten seconds it renews the entry of the
session if the channel is open, and throws where there is no context; then the message runs. -/
def runSocketMessage (s : SessionServer M) (sessionTtl : ℤ) (j : ℕ) (session : SessionAgent)
    (message : SocketMessage) (isOpen : Bool) : SessionServer M :=
  let started := { session with running := some (message.thread session.agent) }
  if session.next10sec < s.timeoutCache.now then
    let next10sec := s.timeoutCache.now + 10 * 1000
    if session.ctx.isNone then
      s.setSession j { session with next10sec := next10sec, running := some .returned }
    else
      let s' := if isOpen then
          { s with timeoutCache := s.timeoutCache.setTtl session.agent.getKey sessionTtl }
        else s
      s'.setSession j { started with next10sec := next10sec }
  else s.setSession j started

/-- The rest of the callback after `unsubscribeAgent`: a web socket session loses its attribute
and is closed. -/
def completeCleanup (s : SessionServer M) (n : ℕ) (cleanup : Cleanup) : SessionServer M :=
  { s with
    attr := cleanup.callback.ctx.elim s.attr fun ctx => Function.update s.attr ctx none
    cleanups := s.cleanups.set n { cleanup with completed := true } }

/-! ### The machine -/

/-- What can happen next: a frame or a request arrives, a message reaches its mailbox, a runner of
session `j` moves or runs its message, the message makes its next synchronized call, the cache
moves, a pool task starts a callback, the callback moves, or the task goes on after it. -/
inductive Action
  | textFrame (ctx : ℕ) (key : String) (message : SocketMessage)
  | http (key : String) (message : SocketMessage)
  | closeFrame (ctx : ℕ)
  | deliver (n : ℕ)
  | mailbox (j : ℕ) (a : RunnablesQueue.Action SocketMessage)
  | runMessage (j i : ℕ) (isOpen : Bool)
  | advance (j : ℕ)
  | cache (a : TimeoutCache.Action Agent ExpiryCallback)
  | expire (i : ℕ)
  | cleanup (n : ℕ)
  | endTask (n : ℕ)

/-- The moves of the mailbox that do not stand for anything else: a message ends when its thread
has returned. -/
def mailboxAllows (session : SessionAgent) : RunnablesQueue.Action SocketMessage → Bool
  | .run _ => false
  | .finish _ _ => session.running = some .returned
  | .begin _ | .hasMore _ | .leave _ => true

/-- Where the session's message is after a move of the mailbox. -/
def runningAfter (session : SessionAgent) : RunnablesQueue.Action SocketMessage → Option Thread
  | .hasMore _ => none
  | .run _ | .finish _ _ | .begin _ | .leave _ => session.running

/-- The moves of the cache that no other part takes part in. -/
def cacheAllows : TimeoutCache.Action Agent ExpiryCallback → Bool
  | .tick _ | .wake | .test | .poll | .copy _ | .close _ => true
  | .put _ _ _ _ | .setTtl _ _ | .remove _ | .start _ | .finish _ _ => false

/-- Move the cache. -/
def moveCache (s : SessionServer M) (a : TimeoutCache.Action Agent ExpiryCallback) :
    Option (SessionServer M) :=
  ((TimeoutCache.machine _ _).step s.timeoutCache a).map fun timeoutCache =>
    { s with timeoutCache := timeoutCache }

/-- Handlers, mailboxes, cache and callbacks in any order. -/
def machine (M : Type*) (sessionTtl : ℤ) : Machine (SessionServer M) Action where
  step s
    | .textFrame ctx key message => some (s.executeChannelMessage sessionTtl ctx key message)
    | .http key message => some (s.executeHttpMessage key message)
    | .closeFrame ctx => some (s.closeFrame ctx)
    | .deliver n =>
      s.arriving[n]?.bind fun (j, message) => s.sessions[j]?.map fun session =>
        { s.setSession j { session with
            socketMessageQ := session.socketMessageQ.run message } with
          arriving := s.arriving.eraseIdx n }
    | .mailbox j a =>
      s.sessions[j]?.bind fun session =>
        if mailboxAllows session a then
          ((RunnablesQueue.machine _).step session.socketMessageQ a).map fun q =>
            s.setSession j { session with socketMessageQ := q, running := runningAfter session a }
        else none
    | .runMessage j i isOpen =>
      s.sessions[j]?.bind fun session =>
        match session.socketMessageQ.runners[i]?, session.running with
        | some (.executing message), none =>
          some (s.runSocketMessage sessionTtl j session message isOpen)
        | _, _ => none
    | .advance j =>
      -- one synchronized call, so that cleanups can come in between
      s.sessions[j]?.bind fun session => session.running.bind fun p =>
        (p.next s.global).map fun (g, p') =>
          { s with global := g }.setSession j { session with running := some p' }
    | .cache a => if cacheAllows a then s.moveCache a else none
    | .expire i =>
      s.timeoutCache.tasks[i]?.bind fun task =>
        (TimeoutCache.next task.phase).bind fun callback =>
          (s.moveCache (.start i)).map fun s' => { s' with
            cleanups := s'.cleanups ++
              [{ callback := callback, task := i, thread := .readingItem callback.agent }] }
    | .cleanup n =>
      s.cleanups[n]?.bind fun cleanup =>
        if cleanup.completed then none
        -- `unsubscribeAgent` call by call, then the rest
        else match cleanup.thread.next s.global with
          | some (g, p') => some { s with
              global := g
              cleanups := s.cleanups.set n { cleanup with thread := p' } }
          | none => some (s.completeCleanup n cleanup)
    | .endTask n =>
      s.cleanups[n]?.bind fun cleanup =>
        if cleanup.completed then s.moveCache (.finish cleanup.task true) else none

/-- What each action does where it is enabled. -/
inductive Step (sessionTtl : ℤ) (s : SessionServer M) : Action → SessionServer M → Prop
  | textFrame (ctx : ℕ) (key : String) (message : SocketMessage) :
      Step sessionTtl s (.textFrame ctx key message)
        (s.executeChannelMessage sessionTtl ctx key message)
  | http (key : String) (message : SocketMessage) :
      Step sessionTtl s (.http key message) (s.executeHttpMessage key message)
  | closeFrame (ctx : ℕ) : Step sessionTtl s (.closeFrame ctx) (s.closeFrame ctx)
  | deliver {n j : ℕ} {message : SocketMessage} {session : SessionAgent}
      (hn : s.arriving[n]? = some (j, message)) (hj : s.sessions[j]? = some session) :
      Step sessionTtl s (.deliver n)
        { s.setSession j { session with
            socketMessageQ := session.socketMessageQ.run message } with
          arriving := s.arriving.eraseIdx n }
  | mailbox {j : ℕ} {a : RunnablesQueue.Action SocketMessage} {session : SessionAgent}
      {q : RunnablesQueue SocketMessage} (hj : s.sessions[j]? = some session)
      (hallows : mailboxAllows session a = true)
      (hq : (RunnablesQueue.machine _).step session.socketMessageQ a = some q) :
      Step sessionTtl s (.mailbox j a)
        (s.setSession j { session with socketMessageQ := q, running := runningAfter session a })
  | runMessage {j i : ℕ} {isOpen : Bool} {session : SessionAgent} {message : SocketMessage}
      (hj : s.sessions[j]? = some session)
      (hrunner : session.socketMessageQ.runners[i]? = some (.executing message))
      (hrunning : session.running = none) :
      Step sessionTtl s (.runMessage j i isOpen)
        (s.runSocketMessage sessionTtl j session message isOpen)
  | advance {j : ℕ} {session : SessionAgent} {p p' : Thread} {g : Global M}
      (hj : s.sessions[j]? = some session) (hp : session.running = some p)
      (hnext : p.next s.global = some (g, p')) :
      Step sessionTtl s (.advance j)
        ({ s with global := g }.setSession j { session with running := some p' })
  | cache {a : TimeoutCache.Action Agent ExpiryCallback}
      {cache : TimeoutCache Agent ExpiryCallback} (hallows : cacheAllows a = true)
      (hcache : (TimeoutCache.machine _ _).step s.timeoutCache a = some cache) :
      Step sessionTtl s (.cache a) { s with timeoutCache := cache }
  | expire {i : ℕ} {task : ExpiryTask ExpiryCallback} {callback : ExpiryCallback}
      {cache : TimeoutCache Agent ExpiryCallback} (htask : s.timeoutCache.tasks[i]? = some task)
      (hcallback : TimeoutCache.next task.phase = some callback)
      (hcache : (TimeoutCache.machine _ _).step s.timeoutCache (.start i) = some cache) :
      Step sessionTtl s (.expire i) { s with
        timeoutCache := cache
        cleanups := s.cleanups ++
          [{ callback := callback, task := i, thread := .readingItem callback.agent }] }
  | cleanup {n : ℕ} {cleanup : Cleanup} {p' : Thread} {g : Global M}
      (hn : s.cleanups[n]? = some cleanup) (hopen : cleanup.completed = false)
      (hnext : cleanup.thread.next s.global = some (g, p')) :
      Step sessionTtl s (.cleanup n) { s with
        global := g
        cleanups := s.cleanups.set n { cleanup with thread := p' } }
  | complete {n : ℕ} {cleanup : Cleanup} (hn : s.cleanups[n]? = some cleanup)
      (hopen : cleanup.completed = false) (hnext : cleanup.thread.next s.global = none) :
      Step sessionTtl s (.cleanup n) (s.completeCleanup n cleanup)
  | endTask {n : ℕ} {cleanup : Cleanup} {cache : TimeoutCache Agent ExpiryCallback}
      (hn : s.cleanups[n]? = some cleanup) (hcompleted : cleanup.completed = true)
      (hcache : (TimeoutCache.machine _ _).step s.timeoutCache (.finish cleanup.task true) =
        some cache) :
      Step sessionTtl s (.endTask n) { s with timeoutCache := cache }

/-- The moves of the cache alone. -/
theorem ne_of_cacheAllows {a : TimeoutCache.Action Agent ExpiryCallback}
    (h : cacheAllows a = true) :
    (∀ key value ttl notified, a ≠ .put key value ttl notified) ∧ (∀ key ttl, a ≠ .setTtl key ttl) ∧
      (∀ key, a ≠ .remove key) ∧ ∀ i, a ≠ .start i := by
  refine ⟨?_, ?_, ?_, ?_⟩
  · rintro _ _ _ _ rfl
    cases h
  · rintro _ _ rfl
    cases h
  · rintro _ rfl
    cases h
  · rintro _ rfl
    cases h

/-- The inversion of a step. -/
theorem step_cases {s t : SessionServer M} {sessionTtl : ℤ} {a : Action}
    (hst : (machine M sessionTtl).step s a = some t) : Step sessionTtl s a t := by
  cases a with
  | textFrame ctx key message => cases hst; exact .textFrame ctx key message
  | http key message => cases hst; exact .http key message
  | closeFrame ctx => cases hst; exact .closeFrame ctx
  | deliver n =>
    obtain ⟨⟨j, message⟩, hn, hst⟩ := Option.bind_eq_some_iff.mp hst
    obtain ⟨session, hj, rfl⟩ := Option.map_eq_some_iff.mp hst
    exact .deliver hn hj
  | mailbox j a =>
    obtain ⟨session, hj, hst⟩ := Option.bind_eq_some_iff.mp hst
    split at hst
    next hallows =>
      obtain ⟨q, hq, rfl⟩ := Option.map_eq_some_iff.mp hst
      exact .mailbox hj hallows hq
    next => cases hst
  | runMessage j i isOpen =>
    obtain ⟨session, hj, hst⟩ := Option.bind_eq_some_iff.mp hst
    split at hst
    next hrunner hrunning => cases hst; exact .runMessage hj hrunner hrunning
    next => cases hst
  | advance j =>
    obtain ⟨session, hj, hst⟩ := Option.bind_eq_some_iff.mp hst
    obtain ⟨p, hp, hst⟩ := Option.bind_eq_some_iff.mp hst
    obtain ⟨⟨g, p'⟩, hnext, rfl⟩ := Option.map_eq_some_iff.mp hst
    exact .advance hj hp hnext
  | cache a =>
    simp only [machine] at hst
    split at hst
    next hallows =>
      obtain ⟨cache, hcache, rfl⟩ := Option.map_eq_some_iff.mp hst
      exact .cache hallows hcache
    next => cases hst
  | expire i =>
    obtain ⟨task, htask, hst⟩ := Option.bind_eq_some_iff.mp hst
    obtain ⟨callback, hcallback, hst⟩ := Option.bind_eq_some_iff.mp hst
    obtain ⟨s', hs', rfl⟩ := Option.map_eq_some_iff.mp hst
    obtain ⟨cache, hcache, rfl⟩ := Option.map_eq_some_iff.mp hs'
    exact .expire htask hcallback hcache
  | cleanup n =>
    obtain ⟨cleanup, hn, hst⟩ := Option.bind_eq_some_iff.mp hst
    split at hst
    next => cases hst
    next hopen =>
      have hopen := Bool.eq_false_iff.mpr hopen
      split at hst
      next g p' hnext => cases hst; exact .cleanup hn hopen hnext
      next hnext => cases hst; exact .complete hn hopen hnext
  | endTask n =>
    obtain ⟨cleanup, hn, hst⟩ := Option.bind_eq_some_iff.mp hst
    split at hst
    next hcompleted =>
      obtain ⟨cache, hcache, rfl⟩ := Option.map_eq_some_iff.mp hst
      exact .endTask hn hcompleted hcache
    next => cases hst

end SessionServer

/-! ### Threads and agents -/

namespace Thread

/-- The next call adds a subscription of the agent. -/
def adds (a : Agent) : Thread → Bool
  | adding b _ => b = a
  | _ => false

/-- The thread of an `unsubscribeAgent` that has removed its agent. -/
def pastRemoval : Thread → Bool
  | checking _ | sendingUnsub _ _ | returned => true
  | _ => false

/-- A point inside `unsubscribeAgent` of the agent. -/
def Removes (a : Agent) : Thread → Prop
  | readingItem b | removingItem b _ => b = a
  | checking _ | sendingUnsub _ _ | returned => True
  | reading _ _ | sendingSub _ _ | adding _ _ | removing _ _ => False

variable {g g' : Global M} {p p' : Thread} {a : Agent}

/-- A thread changes the subscriptions by one operation of the map. -/
theorem session2channel_next (h : p.next g = some (g', p')) :
    g'.session2channel = g.session2channel ∨
      (∃ a c, p = adding a c ∧ g'.session2channel = g.session2channel.add (some a) (some c)) ∨
      (∃ a c, p = removing a c ∧ g'.session2channel = (g.session2channel.remove a c).1) ∨
      ∃ a ds, p = removingItem a ds ∧ g'.session2channel = (g.session2channel.removeItem a).1 := by
  cases next_cases h with
  | add => exact .inr (.inl ⟨_, _, rfl, rfl⟩)
  | remove => exact .inr (.inr (.inl ⟨_, _, rfl, rfl⟩))
  | removeItem => exact .inr (.inr (.inr ⟨_, _, rfl, rfl⟩))
  | _ => exact .inl rfl

theorem linked_next (hg : g.session2channel.Linked) (h : p.next g = some (g', p')) :
    g'.session2channel.Linked := by
  obtain heq | ⟨a, c, -, heq⟩ | ⟨a, c, -, heq⟩ | ⟨a, ds, -, heq⟩ := session2channel_next h <;> rw [heq]
  · exact hg
  · exact hg.add a c
  · exact hg.remove a c
  · exact hg.removeItem a

theorem eq_returned_of_next (h : p.next g = none) : p = returned := by
  cases p with
  | returned => rfl
  | reading a c =>
    simp only [next] at h
    split at h
    next => cases h
    next => split at h <;> cases h
  | checking ds =>
    cases ds with
    | nil => cases h
    | cons d ds =>
      simp only [next] at h
      split at h <;> cases h
  | sendingSub | adding | removing | readingItem | removingItem | sendingUnsub => cases h

/-- Only `add` gives an agent a channel. -/
theorem mem_things_next (h : p.next g = some (g', p')) {c : String}
    (hc : c ∈ g'.session2channel.things a) : c ∈ g.session2channel.things a ∨ p.adds a = true := by
  obtain heq | ⟨b, d, rfl, heq⟩ | ⟨b, d, -, heq⟩ | ⟨b, ds, -, heq⟩ := session2channel_next h <;>
    rw [heq] at hc
  · exact .inl hc
  · rcases SessionMap.mem_things_add.mp hc with hc | ⟨rfl, -⟩
    · exact .inl hc
    · exact .inr (decide_eq_true rfl)
  · exact .inl (SessionMap.mem_things_remove.mp hc).1
  · exact .inl (SessionMap.mem_things_removeItem.mp hc).1

/-- The thread of `unsubscribeAgent` stays inside it. -/
theorem removes_next (hp : p.Removes a) (h : p.next g = some (g', p')) : p'.Removes a := by
  cases next_cases h with
  | nameless | foundEmpty | foundOccupied | sendSub | add | remove => exact hp.elim
  | readItem => exact hp
  | removeItem | checked | becameEmpty | staysOccupied | sendUnsub => trivial

/-- Once its thread is past the removal, the agent has no channel any more. -/
theorem not_mem_things_next (hp : p.Removes a) (h : p.next g = some (g', p'))
    (hgone : p.pastRemoval → ∀ c, c ∉ g.session2channel.things a) (hp' : p'.pastRemoval) (c : String) :
    c ∉ g'.session2channel.things a := by
  cases next_cases h with
  | nameless | foundEmpty | foundOccupied | sendSub | add | remove => exact hp.elim
  | readItem => cases hp'
  | removeItem =>
    -- the step past the removal is the removal
    rintro hc
    exact (SessionMap.mem_things_removeItem.mp hc).2 hp.symm
  | checked | becameEmpty | staysOccupied | sendUnsub => exact hgone rfl c

end Thread

namespace SessionServer

variable {s t : SessionServer M} {sessionTtl : ℤ}

/-! ### The invariant -/

/-- A step that adds no subscription of an agent whose cleanup has removed it. -/
def Clean (s : SessionServer M) : Action → Prop
  | .advance j => ∀ session ∈ s.sessions[j]?, ∀ p ∈ session.running, ∀ e ∈ s.cleanups,
    p.adds e.callback.agent → ¬e.thread.pastRemoval
  | .textFrame _ _ _ | .http _ _ | .closeFrame _ | .deliver _ | .mailbox _ _ | .runMessage _ _ _
  | .cache _ | .expire _ | .cleanup _ | .endTask _ => True

instance (s : SessionServer M) (a : Action) : Decidable (Clean s a) :=
  match a with
  | .advance j => inferInstanceAs (Decidable (∀ session ∈ s.sessions[j]?, ∀ p ∈ session.running,
      ∀ e ∈ s.cleanups, p.adds e.callback.agent → ¬e.thread.pastRemoval))
  | .textFrame _ _ _ | .http _ _ | .closeFrame _ | .deliver _ | .mailbox _ _ | .runMessage _ _ _
  | .cache _ | .expire _ | .cleanup _ | .endTask _ => isTrue trivial

/-- Callbacks belong to sessions that exist, and the agents that cleanups have removed have no
channels. -/
structure Cleaned (s : SessionServer M) : Prop where
  linked : s.global.session2channel.Linked
  callbacks : s.timeoutCache.AllCallbacks fun callback => callback.agent.id < s.sessions.length
  known : ∀ e ∈ s.cleanups, e.callback.agent.id < s.sessions.length
  own : ∀ e ∈ s.cleanups, e.thread.Removes e.callback.agent
  gone : ∀ e ∈ s.cleanups, e.thread.pastRemoval →
    ∀ c, c ∉ s.global.session2channel.things e.callback.agent
  completed : ∀ e ∈ s.cleanups, e.completed → e.thread.pastRemoval

theorem cleaned_init : Cleaned ({} : SessionServer M) :=
  ⟨SessionMap.linked_empty, TimeoutCache.allCallbacks_init, nofun, nofun, nofun, nofun⟩

/-- A step that leaves the subscriptions and the cleanups alone. -/
theorem Cleaned.frame (h : s.Cleaned) (hglobal : t.global = s.global)
    (hcleanups : t.cleanups = s.cleanups) (hsessions : t.sessions.length = s.sessions.length)
    (hcache : t.timeoutCache.AllCallbacks fun callback =>
      callback.agent.id < s.sessions.length) : t.Cleaned := by
  refine ⟨hglobal ▸ h.linked, hsessions ▸ hcache, ?_, ?_, ?_, ?_⟩ <;> rw [hcleanups]
  · exact hsessions ▸ h.known
  · exact h.own
  · exact hglobal ▸ h.gone
  · exact h.completed

/-- A new agent has not been cleaned up, so that its subscription to its own key does no harm. -/
theorem Cleaned.newSession (h : s.Cleaned) (key : String) (ctx : Option ℕ) (ttl : ℤ) :
    (s.newSession key ctx ttl).Cleaned := by
  have hlen : (s.newSession key ctx ttl).sessions.length = s.sessions.length + 1 := by
    simp [SessionServer.newSession]
  have hthings : ∀ e ∈ s.cleanups, ∀ c,
      c ∈ (s.newSession key ctx ttl).global.session2channel.things e.callback.agent →
        c ∈ s.global.session2channel.things e.callback.agent := by
    intro e he c hc
    by_cases hkey : key.length = 0
    · rwa [SessionServer.newSession, Global.subscribe_of_length_eq_zero hkey] at hc
    · rw [SessionServer.newSession, Global.subscribe_session2channel hkey] at hc
      rcases SessionMap.mem_things_add.mp hc with hc | ⟨heq, -⟩
      · exact hc
      · have hlt := h.known e he
        rw [heq] at hlt
        exact absurd hlt (lt_irrefl _)
  refine ⟨?_, ?_, fun e he => ?_, h.own, fun e he hp c hc => h.gone e he hp c (hthings e he c hc),
    h.completed⟩
  · by_cases hkey : key.length = 0
    · rw [SessionServer.newSession, Global.subscribe_of_length_eq_zero hkey]
      exact h.linked
    · rw [SessionServer.newSession, Global.subscribe_session2channel hkey]
      exact h.linked.add _ key
  · rw [hlen]
    refine (h.callbacks.mono fun callback hlt => Nat.lt_succ_of_lt hlt).put fun callback hc => ?_
    rw [List.mem_singleton.mp hc]
    exact Nat.lt_succ_self _
  · rw [hlen]
    exact Nat.lt_succ_of_lt (h.known e he)

/-- Replacing a session keeps the number of sessions. -/
theorem Cleaned.setSession (h : s.Cleaned) (j : ℕ) (session : SessionAgent) :
    (s.setSession j session).Cleaned :=
  h.frame rfl rfl List.length_set h.callbacks

theorem Cleaned.setTtl (h : s.Cleaned) (key : String) (ttl : ℤ) :
    Cleaned { s with timeoutCache := s.timeoutCache.setTtl key ttl } :=
  h.frame rfl rfl rfl (h.callbacks.setTtl key ttl)

/-- The cache gets callbacks from `newSession` only. -/
theorem Cleaned.moveCache (h : s.Cleaned) {a : TimeoutCache.Action Agent ExpiryCallback}
    {cache : TimeoutCache Agent ExpiryCallback}
    (ha : ∀ key value ttl notified, a ≠ .put key value ttl notified)
    (hcache : (TimeoutCache.machine _ _).step s.timeoutCache a = some cache) :
    Cleaned { s with timeoutCache := cache } :=
  h.frame rfl rfl rfl (h.callbacks.step
    (fun key value ttl notified heq => absurd heq (ha key value ttl notified)) hcache)

theorem Cleaned.ensureSessionAgent (h : s.Cleaned) {ctx : ℕ} {key : String} {j : ℕ}
    (hs : s.ensureSessionAgent sessionTtl ctx key = some (t, j)) : t.Cleaned := by
  rw [SessionServer.ensureSessionAgent] at hs
  split at hs
  next =>
    have hnew := h.newSession key (some ctx) sessionTtl
    cases hs
    exact hnew.frame rfl rfl rfl hnew.callbacks
  next =>
    obtain ⟨agent, -, heq⟩ := Option.map_eq_some_iff.mp hs
    cases heq
    exact h

theorem Cleaned.executeChannelMessage (h : s.Cleaned) (ctx : ℕ) (key : String)
    (message : SocketMessage) : (s.executeChannelMessage sessionTtl ctx key message).Cleaned := by
  rw [SessionServer.executeChannelMessage]
  split
  next s' j hs =>
    have hs' := h.ensureSessionAgent hs
    exact hs'.frame rfl rfl rfl hs'.callbacks
  next => exact h

theorem Cleaned.executeHttpMessage (h : s.Cleaned) (key : String) (message : SocketMessage) :
    (s.executeHttpMessage key message).Cleaned := by
  have hnew := h.newSession key none 1
  exact hnew.frame rfl rfl rfl hnew.callbacks

theorem Cleaned.runSocketMessage (h : s.Cleaned) (j : ℕ) (session : SessionAgent)
    (message : SocketMessage) (isOpen : Bool) :
    (s.runSocketMessage sessionTtl j session message isOpen).Cleaned := by
  rw [SessionServer.runSocketMessage]
  split
  · split
    · exact h.setSession j _
    · cases isOpen with
      | true => exact (h.setTtl session.agent.getKey sessionTtl).setSession j _
      | false => exact h.setSession j _
  · exact h.setSession j _

/-- A message's thread moves: it adds no subscription of an agent that is removed. -/
theorem Cleaned.advance (h : s.Cleaned) {p p' : Thread} {g : Global M}
    (hclean : ∀ e ∈ s.cleanups, p.adds e.callback.agent → ¬e.thread.pastRemoval)
    (hnext : p.next s.global = some (g, p')) : Cleaned { s with global := g } := by
  refine ⟨Thread.linked_next h.linked hnext, h.callbacks, h.known, h.own, ?_, h.completed⟩
  intro e he hpast c hc
  rcases Thread.mem_things_next hnext hc with hc | hadds
  · exact h.gone e he hpast c hc
  · exact hclean e he hadds hpast

/-- A started callback has removed nothing yet, and its agent exists. -/
theorem Cleaned.expire (h : s.Cleaned) {callback : ExpiryCallback} (i : ℕ)
    (hcallback : callback.agent.id < s.sessions.length) :
    Cleaned { s with
      cleanups := s.cleanups ++
        [{ callback := callback, task := i, thread := .readingItem callback.agent }] } := by
  refine ⟨h.linked, h.callbacks, ?_, ?_, ?_, ?_⟩ <;> intro e he <;>
    rcases List.mem_append.mp he with he | he
  · exact h.known e he
  · rw [List.mem_singleton.mp he]
    exact hcallback
  · exact h.own e he
  · rw [List.mem_singleton.mp he]
    rfl
  · exact h.gone e he
  · rw [List.mem_singleton.mp he]
    exact nofun
  · exact h.completed e he
  · rw [List.mem_singleton.mp he]
    exact nofun

/-- A callback moves inside its `unsubscribeAgent`. -/
theorem Cleaned.cleanup (h : s.Cleaned) {n : ℕ} {cleanup : Cleanup} {p' : Thread} {g : Global M}
    (hn : s.cleanups[n]? = some cleanup) (hopen : cleanup.completed = false)
    (hnext : cleanup.thread.next s.global = some (g, p')) :
    Cleaned { s with global := g, cleanups := s.cleanups.set n { cleanup with thread := p' } } := by
  have hmem : cleanup ∈ s.cleanups := List.mem_of_getElem? hn
  have hown := h.own cleanup hmem
  -- the thread of a cleanup adds nothing
  have hadds : ∀ a, cleanup.thread.adds a = false := by
    intro a
    cases hp : cleanup.thread with
    | adding => rw [hp] at hown; exact hown.elim
    | _ => rfl
  refine ⟨Thread.linked_next h.linked hnext, h.callbacks, ?_, ?_, ?_, ?_⟩ <;> intro e he <;>
    rcases List.mem_or_eq_of_mem_set he with he | rfl
  · exact h.known e he
  · exact h.known cleanup hmem
  · exact h.own e he
  · exact Thread.removes_next hown hnext
  · intro hpast c hc
    rcases Thread.mem_things_next hnext hc with hc | hc
    · exact h.gone e he hpast c hc
    · exact Bool.false_ne_true ((hadds _).symm.trans hc)
  · exact fun hpast => Thread.not_mem_things_next hown hnext (h.gone cleanup hmem) hpast
  · exact h.completed e he
  · exact fun hcompleted => absurd (hopen.symm.trans hcompleted) Bool.false_ne_true

/-- A callback completes when its `unsubscribeAgent` has returned. -/
theorem Cleaned.completeCleanup (h : s.Cleaned) {n : ℕ} {cleanup : Cleanup}
    (hn : s.cleanups[n]? = some cleanup) (hreturned : cleanup.thread = .returned) :
    (s.completeCleanup n cleanup).Cleaned := by
  have hmem : cleanup ∈ s.cleanups := List.mem_of_getElem? hn
  refine ⟨h.linked, h.callbacks, ?_, ?_, ?_, ?_⟩ <;> intro e he <;>
    rcases List.mem_or_eq_of_mem_set he with he | rfl
  · exact h.known e he
  · exact h.known cleanup hmem
  · exact h.own e he
  · exact h.own cleanup hmem
  · exact h.gone e he
  · exact h.gone cleanup hmem
  · exact h.completed e he
  · exact fun _ => hreturned ▸ rfl

theorem Cleaned.closeFrame (h : s.Cleaned) (ctx : ℕ) : (s.closeFrame ctx).Cleaned := by
  rw [SessionServer.closeFrame]
  split
  · exact h.setTtl _ 0
  · exact h

/-- The step lemma. -/
theorem Cleaned.step (h : s.Cleaned) {a : Action} (ha : Clean s a)
    (hst : (machine M sessionTtl).step s a = some t) : t.Cleaned := by
  cases step_cases hst with
  | textFrame ctx key message => exact h.executeChannelMessage ctx key message
  | http key message => exact h.executeHttpMessage key message
  | closeFrame ctx => exact h.closeFrame ctx
  | deliver => exact h.frame rfl rfl List.length_set h.callbacks
  | mailbox => exact h.setSession _ _
  | runMessage => exact h.runSocketMessage _ _ _ _
  | advance hj hp hnext => exact (h.advance (ha _ hj _ hp) hnext).setSession _ _
  | cache hallows hcache => exact h.moveCache (ne_of_cacheAllows hallows).1 hcache
  | expire htask hcallback hcache =>
    have hlt := h.callbacks.tasks _ (List.mem_of_getElem? htask) _
      (TimeoutCache.mem_held_of_next hcallback)
    exact (h.moveCache (by rintro _ _ _ _ ⟨⟩) hcache).expire _ hlt
  | cleanup hn hopen hnext => exact h.cleanup hn hopen hnext
  | complete hn _ hnext => exact h.completeCleanup hn (Thread.eq_returned_of_next hnext)
  | endTask _ _ hcache => exact h.moveCache (by rintro _ _ _ _ ⟨⟩) hcache

/-! ### Leaks -/

/-- **No subscription leak.** In every run in which no message adds a subscription of an agent
that its cleanup has removed: once an expiry callback has completed, its agent has no channel
and is in no delivery set. -/
theorem no_subscription_leak (h : (machine M sessionTtl).Runs Clean {} s) {e : Cleanup}
    (he : e ∈ s.cleanups) (hcompleted : e.completed = true) (c : String) :
    c ∉ s.global.channels e.callback.agent ∧ e.callback.agent ∉ s.global.subscribers c := by
  have hs : s.Cleaned := h.invariant (fun ha hs hst => hs.step ha hst) cleaned_init
  have hgone := hs.gone e he (hs.completed e he hcompleted) c
  rw [Global.mem_channels, Global.mem_subscribers]
  exact ⟨hgone, fun hmem => hgone (hs.linked _ _ hmem)⟩

/-- An HTTP session subscribes and is cleaned up afterwards. -/
theorem no_subscription_leak_http :
    ∃ s, (machine Unit 120000).Runs Clean {} s ∧ ∃ e ∈ s.cleanups, e.completed = true ∧
      e.callback.agent = ⟨0, "key"⟩ ∧ ∀ c, c ∉ s.global.channels e.callback.agent ∧
        e.callback.agent ∉ s.global.subscribers c := by
  obtain ⟨s, hrun, e, he, hcompleted, hagent⟩ := Machine.Runs.exists_of_run
    (m := machine Unit 120000) (G := Clean) (s := {})
    (P := fun s => ∃ e ∈ s.cleanups, e.completed = true ∧ e.callback.agent = ⟨0, "key"⟩)
    [.http "key" (.subscribe "abcd"), .deliver 0, .mailbox 0 (.begin 0), .mailbox 0 (.hasMore 0),
      .runMessage 0 0 true, .advance 0, .advance 0, .advance 0, .cache (.tick 2), .cache .wake,
      .cache .test, .cache .poll, .cache (.copy 0), .expire 0, .cleanup 0, .cleanup 0, .cleanup 0,
      .cleanup 0, .cleanup 0, .cleanup 0, .cleanup 0, .cleanup 0] (by decide)
  exact ⟨s, hrun, e, he, hcompleted, hagent, fun c => no_subscription_leak hrun he hcompleted c⟩

/-- An HTTP session expires before a pool thread gets to its message: the cleanup completes, the
task ends, and then the `Subscribe` runs. -/
theorem subscription_leaks :
    ∃ s, (machine Unit 120000).Reaches {} s ∧ ∃ e ∈ s.cleanups, e.completed = true ∧
      "abcd" ∈ s.global.channels e.callback.agent ∧
        e.callback.agent ∈ s.global.subscribers "abcd" :=
  Machine.Reaches.exists_of_run [.http "key" (.subscribe "abcd"), .deliver 0, .cache (.tick 2),
    .cache .wake, .cache .test, .cache .poll, .cache (.copy 0), .expire 0, .cleanup 0, .cleanup 0,
    .cleanup 0, .cleanup 0, .cleanup 0, .cleanup 0, .endTask 0, .cache (.close 0),
    .mailbox 0 (.begin 0), .mailbox 0 (.hasMore 0), .runMessage 0 0 true, .advance 0, .advance 0,
    .advance 0] (by decide)

end SessionServer

end Gwems
