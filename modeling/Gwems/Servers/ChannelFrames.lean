import Gwems.Servers.Session
import Gwems.Util.TimeoutCacheExpiry

/-!
# Text frames against the expiry of their session

`almost_private_EnsureSessionAgent` reads the "session" attribute of a channel twice: once to see
whether there is a session, and once for the key under which it looks the session up. Then the
frame is put on the `socketMessageQ` of the session. `Gwems.Servers.Session` takes all of this as
one step; here each read, the lookup, the `put` of a new session and the `run` at the end are steps
of the thread that reads the channel, and pool threads run the expiry callbacks of its sessions in
between: they unsubscribe the agent, reset the attribute, write a `CloseWebSocketFrame` and return.

The frames of one channel come one after another on the thread of its event loop. Whatever else
uses the `timeoutCache`, renewals of sessions included, is in the action `others`.

A callback that resets the attribute between the two reads makes the lookup one with a null key,
and a callback that returns while a frame is on its way to the session leaves the frame on the
queue of a dead session (`frames_go_astray`). `every_frame_live_iff` says that nothing else goes
wrong, and that both always do: a run in which all frames have been handled is a good one exactly
if no callback makes such a move (`Apart`). The lookup itself never fails, since nothing is ever
dropped from the cache.
-/

namespace Gwems

/-! ### The model -/

/-- The callbacks of the cache: the one that `almost_private_EnsureSessionAgent` registers for a
session of the channel, and all others. -/
inductive ChannelCallback
  | session (agent : Agent)
  | other
deriving DecidableEq

/-- Where the thread of the channel is with a frame: before the call that the name says. -/
inductive Reader (X : Type*)
  | idle
  | testing (message : X)
  | constructing (message : X)
  | setting (agent : Agent) (message : X)
  | putting (agent : Agent) (message : X)
  | acking (agent : Agent) (message : X)
  | reading (message : X)
  | looking (key : Option String) (message : X)
  | running (agent : Agent) (message : X)
deriving DecidableEq

/-- Where an expiry callback is. -/
inductive CallbackPhase
  | unsubscribing (thread : Thread)
  | resetting
  | closing
  | completed
deriving DecidableEq

/-- An expiry callback of a session that a pool task has started. -/
structure ChannelCleanup where
  agent : Agent
  task : ℕ
  phase : CallbackPhase
deriving DecidableEq

/-- What has become of a frame: its message is on the `socketMessageQ` of an agent, whose expiry
callback has completed before or not; or the lookup was one with a null key, or gave a null agent,
and threw. -/
inductive FrameOutcome (X : Type*)
  | queued (agent : Agent) (message : X) (expired : Bool)
  | nullKey (message : X)
  | nullAgent (message : X)
deriving DecidableEq

/-- A server and one of its channels. -/
structure ChannelServer (M X : Type*) where
  global : Global M := {}
  timeoutCache : TimeoutCache Agent ChannelCallback := {}
  /-- The "session" attribute of the channel. -/
  attr : Option String := none
  /-- The `SessionAgent`s made for the channel. -/
  sessions : List Agent := []
  reader : Reader X := .idle
  cleanups : List ChannelCleanup := []
  outcomes : List (FrameOutcome X) := []

namespace ChannelServer

variable {M X : Type*}

/-- The expiry callback of the agent has completed. -/
def Expired (s : ChannelServer M X) (agent : Agent) : Prop :=
  ∃ e ∈ s.cleanups, e.agent = agent ∧ e.phase = .completed

instance (s : ChannelServer M X) (agent : Agent) : Decidable (s.Expired agent) :=
  inferInstanceAs (Decidable (∃ e ∈ s.cleanups, e.agent = agent ∧ e.phase = .completed))

/-- The next call of `executeChannelMessage`, other than the constructor. -/
def read (s : ChannelServer M X) (sessionTtl : ℤ) : Option (ChannelServer M X) :=
  match s.reader with
  | .idle | .constructing _ => none
  | .testing message =>
    some { s with reader := if s.attr.isNone then .constructing message else .reading message }
  | .setting agent message =>
    some { s with attr := some agent.getKey, reader := .putting agent message }
  | .putting agent message => some { s with
      timeoutCache := s.timeoutCache.put agent.getKey (some agent) sessionTtl [.session agent]
      reader := .acking agent message }
  | .acking agent message => some { s with reader := .running agent message }
  | .reading message =>
    -- the second read: the attribute may have changed
    some { s with reader := .looking s.attr message }
  | .looking none message =>
    some { s with reader := .idle, outcomes := s.outcomes ++ [.nullKey message] }
  | .looking (some key) message =>
    match s.timeoutCache.get key with
    | some agent => some { s with reader := .running agent message }
    | none => some { s with reader := .idle, outcomes := s.outcomes ++ [.nullAgent message] }
  | .running agent message => some { s with
      reader := .idle
      outcomes := s.outcomes ++ [.queued agent message (s.Expired agent)] }

/-- `new SessionAgent(this, getRandom(), ctx)`, with the key that `getRandom` gives. The
constructor of `Agent` subscribes the agent to its key. -/
def construct (s : ChannelServer M X) (key : String) (message : X) : ChannelServer M X :=
  let agent : Agent := { id := s.sessions.length, hash := key }
  { s with
    global := s.global.subscribe agent key
    sessions := s.sessions ++ [agent]
    reader := .setting agent message }

/-- The key is not in use. -/
def Unused (s : ChannelServer M X) (key : String) : Prop :=
  s.timeoutCache.cache key = none ∧ ∀ agent ∈ s.sessions, agent.getKey ≠ key

instance (s : ChannelServer M X) (key : String) : Decidable (s.Unused key) :=
  inferInstanceAs (Decidable (s.timeoutCache.cache key = none ∧ ∀ agent ∈ s.sessions,
    agent.getKey ≠ key))

/-- The next call of an expiry callback. -/
def callback (s : ChannelServer M X) (n : ℕ) (e : ChannelCleanup) : Option (ChannelServer M X) :=
  match e.phase with
  | .unsubscribing thread =>
    match thread.next s.global with
    | some (g, thread') => some { s with
        global := g
        cleanups := s.cleanups.set n { e with phase := .unsubscribing thread' } }
    | none => some { s with cleanups := s.cleanups.set n { e with phase := .resetting } }
  | .resetting => some { s with
      attr := none
      cleanups := s.cleanups.set n { e with phase := .closing } }
  | .closing => some { s with cleanups := s.cleanups.set n { e with phase := .completed } }
  | .completed => none

/-- The callback that a task is running. -/
def runningCallback : TaskPhase ChannelCallback → Option ChannelCallback
  | .running current _ => current
  | .submitted | .done | .dead => none

/-- The moves of the cache that are not the channel's: callers do not put the keys of its sessions,
and tasks start and end other callbacks than its own. -/
def OthersAllow (s : ChannelServer M X) : TimeoutCache.Action Agent ChannelCallback → Prop
  | .put key _ _ notified =>
    (∀ agent ∈ s.sessions, agent.getKey ≠ key) ∧ ∀ callback ∈ notified, callback = .other
  | .start i =>
    (s.timeoutCache.tasks[i]?.bind fun task => TimeoutCache.next task.phase) = some .other
  | .finish i _ =>
    (s.timeoutCache.tasks[i]?.bind fun task => runningCallback task.phase) = some .other
  | .tick _ | .setTtl _ _ | .remove _ | .wake | .test | .poll | .copy _ | .close _ => True

instance (s : ChannelServer M X) (a : TimeoutCache.Action Agent ChannelCallback) :
    Decidable (s.OthersAllow a) := by
  unfold OthersAllow
  cases a <;> infer_instance

/-- What can happen next: a frame arrives, a session is made for it, the thread of the channel makes
its next call, a pool task starts a callback of the channel, the callback makes its next call, its
task goes on after it, or the cache moves otherwise. -/
inductive Action (X : Type*)
  | textFrame (message : X)
  | construct (key : String)
  | read
  | expire (i : ℕ)
  | callback (n : ℕ)
  | endTask (n : ℕ)
  | others (a : TimeoutCache.Action Agent ChannelCallback)

/-- Move the cache. -/
def moveCache (s : ChannelServer M X) (a : TimeoutCache.Action Agent ChannelCallback) :
    Option (ChannelServer M X) :=
  ((TimeoutCache.machine _ _).step s.timeoutCache a).map fun timeoutCache =>
    { s with timeoutCache := timeoutCache }

/-- The thread of the channel, pool threads and the rest of the server in any order. -/
def machine (M X : Type*) (sessionTtl : ℤ) : Machine (ChannelServer M X) (Action X) where
  step s
    | .textFrame message =>
      match s.reader with
      | .idle => some { s with reader := .testing message }
      | _ => none
    | .construct key =>
      match s.reader with
      | .constructing message => if s.Unused key then some (s.construct key message) else none
      | _ => none
    | .read => s.read sessionTtl
    | .expire i =>
      match s.timeoutCache.tasks[i]?.bind fun task => TimeoutCache.next task.phase with
      | some (.session agent) => (s.moveCache (.start i)).map fun s' => { s' with
          cleanups := s'.cleanups ++
            [{ agent := agent, task := i, phase := .unsubscribing (.readingItem agent) }] }
      | _ => none
    | .callback n => s.cleanups[n]?.bind fun e => s.callback n e
    | .endTask n =>
      s.cleanups[n]?.bind fun e =>
        if e.phase = .completed then s.moveCache (.finish e.task true) else none
    | .others a => if s.OthersAllow a then s.moveCache a else none

/-- What each action does where it is enabled. -/
inductive Step (sessionTtl : ℤ) (s : ChannelServer M X) : Action X → ChannelServer M X → Prop
  | textFrame {message : X} (hreader : s.reader = .idle) :
      Step sessionTtl s (.textFrame message) { s with reader := .testing message }
  | construct {key : String} {message : X} (hreader : s.reader = .constructing message)
      (hkey : s.Unused key) : Step sessionTtl s (.construct key) (s.construct key message)
  | read {t : ChannelServer M X} (hread : s.read sessionTtl = some t) : Step sessionTtl s .read t
  | expire {i : ℕ} {task : ExpiryTask ChannelCallback} {agent : Agent}
      {cache : TimeoutCache Agent ChannelCallback} (htask : s.timeoutCache.tasks[i]? = some task)
      (hnext : TimeoutCache.next task.phase = some (.session agent))
      (hcache : (TimeoutCache.machine _ _).step s.timeoutCache (.start i) = some cache) :
      Step sessionTtl s (.expire i) { s with
        timeoutCache := cache
        cleanups := s.cleanups ++
          [{ agent := agent, task := i, phase := .unsubscribing (.readingItem agent) }] }
  | callback {n : ℕ} {e : ChannelCleanup} {t : ChannelServer M X} (hn : s.cleanups[n]? = some e)
      (hcallback : s.callback n e = some t) : Step sessionTtl s (.callback n) t
  | endTask {n : ℕ} {e : ChannelCleanup} {cache : TimeoutCache Agent ChannelCallback}
      (hn : s.cleanups[n]? = some e) (hcompleted : e.phase = .completed)
      (hcache : (TimeoutCache.machine _ _).step s.timeoutCache (.finish e.task true) =
        some cache) : Step sessionTtl s (.endTask n) { s with timeoutCache := cache }
  | others {a : TimeoutCache.Action Agent ChannelCallback}
      {cache : TimeoutCache Agent ChannelCallback} (hallows : s.OthersAllow a)
      (hcache : (TimeoutCache.machine _ _).step s.timeoutCache a = some cache) :
      Step sessionTtl s (.others a) { s with timeoutCache := cache }

/-- The inversion of a step. -/
theorem step_cases {s t : ChannelServer M X} {sessionTtl : ℤ} {a : Action X}
    (hst : (machine M X sessionTtl).step s a = some t) : Step sessionTtl s a t := by
  cases a with
  | textFrame message =>
    simp only [machine] at hst
    split at hst
    next hreader => cases hst; exact .textFrame hreader
    next => cases hst
  | construct key =>
    simp only [machine] at hst
    split at hst
    next message hreader =>
      split at hst
      next hkey => cases hst; exact .construct hreader hkey
      next => cases hst
    next => cases hst
  | read => exact .read hst
  | expire i =>
    simp only [machine] at hst
    split at hst
    next agent hagent =>
      obtain ⟨task, htask, hnext⟩ := Option.bind_eq_some_iff.mp hagent
      obtain ⟨s', hs', rfl⟩ := Option.map_eq_some_iff.mp hst
      obtain ⟨cache, hcache, rfl⟩ := Option.map_eq_some_iff.mp hs'
      exact .expire htask hnext hcache
    next => cases hst
  | callback n =>
    obtain ⟨e, hn, hcallback⟩ := Option.bind_eq_some_iff.mp hst
    exact .callback hn hcallback
  | endTask n =>
    obtain ⟨e, hn, hst⟩ := Option.bind_eq_some_iff.mp hst
    split at hst
    next hcompleted =>
      obtain ⟨cache, hcache, rfl⟩ := Option.map_eq_some_iff.mp hst
      exact .endTask hn hcompleted hcache
    next => cases hst
  | others a =>
    simp only [machine] at hst
    split at hst
    next hallows =>
      obtain ⟨cache, hcache, rfl⟩ := Option.map_eq_some_iff.mp hst
      exact .others hallows hcache
    next => cases hst

/-! ### Sessions and their entries -/

/-- The agent of a session that is not in the cache yet. -/
def making : Reader X → Option Agent
  | .setting agent _ | .putting agent _ => some agent
  | .idle | .testing _ | .constructing _ | .acking _ _ | .reading _ | .looking _ _ | .running _ _ =>
    none

/-- The agent is one of the channel's, and its session has been put into the cache. -/
def Known (s : ChannelServer M X) (agent : Agent) : Prop :=
  agent ∈ s.sessions ∧ making s.reader ≠ some agent

/-- The callback of the agent has reset the attribute. -/
def Reset (s : ChannelServer M X) (agent : Agent) : Prop :=
  ∃ e ∈ s.cleanups, e.agent = agent ∧ (e.phase = .closing ∨ e.phase = .completed)

/-- What holds in every run: the sessions of the channel have different numbers and keys, they are
in the cache and their callbacks are theirs; the attribute, as long as there is one, is the key
of a session that has not reset it; and a key that is looked up is that of a session. -/
structure Sound (s : ChannelServer M X) : Prop where
  owned : s.timeoutCache.Owned
  number : ∀ agent ∈ s.sessions, agent.id < s.sessions.length
  key_inj : ∀ a ∈ s.sessions, ∀ b ∈ s.sessions, a.getKey = b.getKey → a = b
  get : ∀ agent, s.Known agent → s.timeoutCache.get agent.getKey = some agent
  callbacks : s.timeoutCache.AllCallbacks fun callback =>
    ∀ agent, callback = .session agent → s.Known agent
  cleanups : ∀ e ∈ s.cleanups, s.Known e.agent
  made : ∀ agent ∈ making s.reader, agent ∈ s.sessions
  attr : ∀ key ∈ s.attr, ∃ agent ∈ s.sessions, agent.getKey = key ∧ ¬s.Reset agent
  looked : ∀ key message, s.reader = .looking (some key) message →
    ∃ agent ∈ s.sessions, agent.getKey = key

variable {s t : ChannelServer M X} {sessionTtl : ℤ}

theorem sound_init : Sound ({} : ChannelServer M X) where
  owned := TimeoutCache.owned_init
  number := List.forall_mem_nil _
  key_inj := List.forall_mem_nil _
  get _ h := absurd h.1 List.not_mem_nil
  callbacks := TimeoutCache.allCallbacks_init
  cleanups := List.forall_mem_nil _
  made _ h := nomatch h
  attr _ h := nomatch h
  looked _ _ h := nomatch h

/-- A step of the channel's thread that leaves the cache and the sessions alone. -/
theorem Sound.frame (h : s.Sound) (hcache : t.timeoutCache = s.timeoutCache)
    (hsessions : t.sessions = s.sessions) (hcleanups : t.cleanups = s.cleanups)
    (hmaking : making t.reader = making s.reader)
    (hattr : ∀ key ∈ t.attr, ∃ agent ∈ s.sessions, agent.getKey = key ∧ ¬s.Reset agent)
    (hlooked : ∀ key message, t.reader = .looking (some key) message →
      ∃ agent ∈ s.sessions, agent.getKey = key) : t.Sound := by
  have hknown : ∀ agent, t.Known agent ↔ s.Known agent := fun agent => by
    unfold Known
    rw [hsessions, hmaking]
  have hreset : ∀ agent, t.Reset agent ↔ s.Reset agent := fun agent => by
    unfold Reset
    rw [hcleanups]
  refine ⟨hcache ▸ h.owned, ?_, ?_, ?_, ?_, ?_, ?_, ?_, ?_⟩
  · rw [hsessions]
    exact h.number
  · rw [hsessions]
    exact h.key_inj
  · rw [hcache]
    exact fun agent hk => h.get agent ((hknown agent).mp hk)
  · rw [hcache]
    exact h.callbacks.mono fun callback hc agent heq => (hknown agent).mpr (hc agent heq)
  · rw [hcleanups]
    exact fun e he => (hknown e.agent).mpr (h.cleanups e he)
  · rw [hsessions, hmaking]
    exact h.made
  · rw [hsessions]
    intro key hkey
    obtain ⟨agent, hmem, heq, hnot⟩ := hattr key hkey
    exact ⟨agent, hmem, heq, fun hr => hnot ((hreset agent).mp hr)⟩
  · rw [hsessions]
    exact hlooked

/-- Setting the attribute to the key of a session that has no callback yet. -/
theorem Sound.setting (h : s.Sound) {agent : Agent} {message : X}
    (hreader : s.reader = .setting agent message) :
    Sound { s with attr := some agent.getKey, reader := .putting agent message } := by
  have hmaking : making s.reader = some agent := by rw [hreader]; rfl
  refine h.frame rfl rfl rfl hmaking.symm (fun key hkey => ?_) nofun
  refine ⟨agent, h.made agent hmaking, Option.some.inj hkey, ?_⟩
  rintro ⟨e, he, rfl, -⟩
  exact (h.cleanups e he).2 hmaking

/-- The `put` of a new session. -/
theorem Sound.putting (h : s.Sound) {agent : Agent} {message : X}
    (hreader : s.reader = .putting agent message) :
    Sound { s with
      timeoutCache := s.timeoutCache.put agent.getKey (some agent) sessionTtl [.session agent]
      reader := .acking agent message } := by
  have hmaking : making s.reader = some agent := by rw [hreader]; rfl
  have hmem := h.made agent hmaking
  -- nothing is being made behind the `put`
  have hmade : ∀ a, making (.acking agent message : Reader X) ≠ some a := by
    rintro a ⟨⟩
  refine ⟨h.owned.put _ _ _ _, h.number, h.key_inj, fun a ha => ?_, ?_, ?_,
    fun a ha => absurd ha (hmade a), h.attr, fun _ _ hreading => by cases hreading⟩
  · rw [TimeoutCache.get, TimeoutCache.put_cache]
    by_cases hkey : a.getKey = agent.getKey
    · rw [hkey, Function.update_self, h.key_inj a ha.1 agent hmem hkey]
    · rw [Function.update_of_ne hkey]
      refine h.get a ⟨ha.1, fun heq => hkey ?_⟩
      rw [hmaking, Option.some.injEq] at heq
      rw [heq]
  · refine TimeoutCache.AllCallbacks.put (h.callbacks.mono fun callback hc a heq => ?_) ?_
    · exact ⟨(hc a heq).1, hmade a⟩
    · intro callback hc a heq
      rw [List.mem_singleton.mp hc] at heq
      cases heq
      exact ⟨hmem, hmade _⟩
  · exact fun e he => ⟨(h.cleanups e he).1, hmade _⟩

/-- A new session. -/
theorem Sound.construct (h : s.Sound) {key : String} (hkey : s.Unused key) (message : X)
    (hreader : s.reader = .constructing message) : (s.construct key message).Sound := by
  have hmaking : making s.reader = none := by rw [hreader]; rfl
  let new : Agent := { id := s.sessions.length, hash := key }
  have hold : ∀ a ∈ s.sessions, new ≠ a := by
    rintro a ha rfl
    exact lt_irrefl _ (h.number _ ha)
  have hknown : ∀ a, s.Known a → (s.construct key message).Known a := by
    rintro a ⟨ha, -⟩
    refine ⟨List.mem_append_left _ ha, fun heq => hold a ha ?_⟩
    exact Option.some.inj heq
  refine ⟨h.owned, fun a ha => ?_, fun a ha b hb hab => ?_, fun a ha => ?_, ?_, fun e he => ?_,
    fun a ha => ?_, fun k hk => ?_, nofun⟩
  · have hlen : (s.construct key message).sessions.length = s.sessions.length + 1 :=
      List.length_append
    rw [hlen]
    rcases List.mem_append.mp ha with ha | ha
    · exact Nat.lt_succ_of_lt (h.number a ha)
    · rw [List.mem_singleton.mp ha]
      exact Nat.lt_succ_self _
  · rcases List.mem_append.mp ha with ha | ha <;> rcases List.mem_append.mp hb with hb | hb
    · exact h.key_inj a ha b hb hab
    · rw [List.mem_singleton.mp hb] at hab
      exact absurd hab (hkey.2 a ha)
    · rw [List.mem_singleton.mp ha] at hab
      exact absurd hab.symm (hkey.2 b hb)
    · rw [List.mem_singleton.mp ha, List.mem_singleton.mp hb]
  · obtain ⟨hmem, hnot⟩ := ha
    rcases List.mem_append.mp hmem with hmem | hmem
    · refine h.get a ⟨hmem, ?_⟩
      rw [hmaking]
      exact nofun
    · rw [List.mem_singleton.mp hmem] at hnot
      exact absurd rfl hnot
  · exact h.callbacks.mono fun callback hc a heq => hknown a (hc a heq)
  · exact hknown e.agent (h.cleanups e he)
  · rw [← Option.some.inj ha]
    exact List.mem_append_right _ (List.mem_singleton_self _)
  · obtain ⟨a, ha, hak, hnot⟩ := h.attr k hk
    exact ⟨a, List.mem_append_left _ ha, hak, hnot⟩

/-- A step of the channel's thread. -/
theorem Sound.read (h : s.Sound) (hread : s.read sessionTtl = some t) : t.Sound := by
  rw [ChannelServer.read] at hread
  split at hread
  next => cases hread
  next => cases hread
  next message hreader =>
    cases hread
    refine h.frame rfl rfl rfl ?_ h.attr ?_
    · rw [hreader]
      dsimp only
      split <;> rfl
    · intro key message' hlooking
      dsimp only at hlooking
      split at hlooking <;> cases hlooking
  next agent message hreader => cases hread; exact h.setting hreader
  next agent message hreader => cases hread; exact h.putting hreader
  next agent message hreader =>
    cases hread
    exact h.frame rfl rfl rfl (by rw [hreader]; rfl) h.attr nofun
  next message hreader =>
    cases hread
    refine h.frame rfl rfl rfl (by rw [hreader]; rfl) h.attr fun key message' hlooking => ?_
    rw [Reader.looking.injEq] at hlooking
    obtain ⟨agent, hmem, hkey, -⟩ := h.attr key hlooking.1
    exact ⟨agent, hmem, hkey⟩
  next message hreader =>
    cases hread
    exact h.frame rfl rfl rfl (by rw [hreader]; rfl) h.attr nofun
  next key message hreader =>
    split at hread <;> cases hread <;>
      exact h.frame rfl rfl rfl (by rw [hreader]; rfl) h.attr nofun
  next agent message hreader =>
    cases hread
    exact h.frame rfl rfl rfl (by rw [hreader]; rfl) h.attr nofun

/-- A callback that moves on. -/
theorem Sound.callback (h : s.Sound) {n : ℕ} {e : ChannelCleanup} (hn : s.cleanups[n]? = some e)
    (hcallback : s.callback n e = some t) : t.Sound := by
  -- only the phase of the callback, the subscriptions and the attribute change
  have hset : ∀ {phase : CallbackPhase} {g : Global M} {attr : Option String},
      (∀ key ∈ attr, key ∈ s.attr ∧
        ((phase = .closing ∨ phase = .completed) → e.phase = .closing)) →
      Sound { s with
        global := g
        attr := attr
        cleanups := s.cleanups.set n { e with phase := phase } } := by
    intro phase g attr hattr
    refine ⟨h.owned, h.number, h.key_inj, h.get, h.callbacks, fun e' he' => ?_, h.made,
      fun key hkey => ?_, h.looked⟩
    · rcases List.mem_or_eq_of_mem_set he' with he' | rfl
      · exact h.cleanups e' he'
      · exact h.cleanups e (List.mem_of_getElem? hn)
    · obtain ⟨hold, hphase⟩ := hattr key hkey
      obtain ⟨agent, hmem, heq, hnot⟩ := h.attr key hold
      refine ⟨agent, hmem, heq, fun hreset => hnot ?_⟩
      obtain hother | ⟨hagent, hlast⟩ := (exists_mem_set_iff_others hn).mp hreset |>.symm
      · exact (exists_mem_iff_others hn).mpr (.inr hother)
      · exact ⟨e, List.mem_of_getElem? hn, hagent, .inl (hphase hlast)⟩
  rw [ChannelServer.callback] at hcallback
  split at hcallback
  next thread hphase =>
    split at hcallback <;> cases hcallback <;>
      exact hset fun key hkey => ⟨hkey, fun hlast => nomatch hlast⟩
  next hphase =>
    cases hcallback
    exact hset nofun
  next hphase =>
    cases hcallback
    exact hset fun key hkey => ⟨hkey, fun _ => hphase⟩
  next => cases hcallback

/-- A move of the cache, with the callbacks of the channel that it starts. -/
theorem Sound.moveCache (h : s.Sound) {a : TimeoutCache.Action Agent ChannelCallback}
    {cache : TimeoutCache Agent ChannelCallback}
    (hcache : (TimeoutCache.machine _ _).step s.timeoutCache a = some cache)
    (hput : ∀ key value ttl notified, a = .put key value ttl notified →
      (∀ agent ∈ s.sessions, agent.getKey ≠ key) ∧ ∀ callback ∈ notified, callback = .other)
    {cleanups : List ChannelCleanup}
    (hcleanups : ∀ e ∈ cleanups, s.Known e.agent ∧ e.phase ≠ .closing ∧ e.phase ≠ .completed) :
    Sound { s with timeoutCache := cache, cleanups := s.cleanups ++ cleanups } := by
  refine ⟨h.owned.step hcache, h.number, h.key_inj, fun agent hk => ?_, ?_, fun e he => ?_, h.made,
    fun key hkey => ?_, h.looked⟩
  · have hnot : TimeoutCache.NotPut agent.getKey s.timeoutCache a := by
      cases a with
      | put key value ttl notified =>
        exact Ne.symm ((hput key value ttl notified rfl).1 agent hk.1)
      | _ => trivial
    have hget := h.get agent hk
    rw [TimeoutCache.get] at hget ⊢
    rwa [TimeoutCache.cache_step hnot hcache]
  · refine h.callbacks.step (fun key value ttl notified heq callback hc agent hsession => ?_) hcache
    rw [(hput key value ttl notified heq).2 callback hc] at hsession
    cases hsession
  · rcases List.mem_append.mp he with he | he
    · exact h.cleanups e he
    · exact (hcleanups e he).1
  · obtain ⟨agent, hmem, heq, hnot⟩ := h.attr key hkey
    refine ⟨agent, hmem, heq, ?_⟩
    rintro ⟨e, he, hagent, hphase⟩
    rcases List.mem_append.mp he with he | he
    · exact hnot ⟨e, he, hagent, hphase⟩
    · obtain ⟨-, hclosing, hcompleted⟩ := hcleanups e he
      exact hphase.elim hclosing hcompleted

/-- The step lemma. -/
theorem Sound.step (h : s.Sound) {a : Action X}
    (hst : (machine M X sessionTtl).step s a = some t) : t.Sound := by
  have hcache : ∀ {a : TimeoutCache.Action Agent ChannelCallback}
      {cache : TimeoutCache Agent ChannelCallback},
      (TimeoutCache.machine _ _).step s.timeoutCache a = some cache →
      (∀ key value ttl notified, a = .put key value ttl notified →
        (∀ agent ∈ s.sessions, agent.getKey ≠ key) ∧ ∀ callback ∈ notified, callback = .other) →
      Sound { s with timeoutCache := cache } := by
    intro a cache hst hput
    have hmove := h.moveCache hst hput (List.forall_mem_nil _)
    rwa [List.append_nil] at hmove
  cases step_cases hst with
  | textFrame hreader => exact h.frame rfl rfl rfl (by rw [hreader]; rfl) h.attr nofun
  | construct hreader hkey => exact h.construct hkey _ hreader
  | read hread => exact h.read hread
  | @expire i task agent cache htask hnext hst' =>
    refine h.moveCache hst' (by rintro _ _ _ _ ⟨⟩) fun e he => ?_
    rw [List.mem_singleton.mp he]
    refine ⟨?_, nofun, nofun⟩
    exact h.callbacks.tasks _ (List.mem_of_getElem? htask) _
      (TimeoutCache.mem_held_of_next hnext) agent rfl
  | callback hn hcallback => exact h.callback hn hcallback
  | endTask _ _ hst' => exact hcache hst' (by rintro _ _ _ _ ⟨⟩)
  | others hallows hst' =>
    refine hcache hst' ?_
    rintro key value ttl notified rfl
    exact hallows

/-! ### Frames that go astray -/

/-- Every frame handled so far is on the queue of a session whose expiry callback had not
completed: no lookup was made with a null key, and none gave a null agent. -/
def Good (s : ChannelServer M X) : Prop :=
  ∀ o ∈ s.outcomes, ∃ agent message, o = .queued agent message false

/-- The frame in hand cannot reach a live session any more: the attribute has gone between the two
reads, or the session is dead. -/
def Doomed (s : ChannelServer M X) : Prop :=
  match s.reader with
  | .idle | .testing _ | .constructing _ => False
  | .setting agent _ | .putting agent _ | .acking agent _ | .running agent _ => s.Expired agent
  | .reading _ => s.attr = none
  | .looking none _ => True
  | .looking (some key) _ => ∃ agent ∈ s.sessions, agent.getKey = key ∧ s.Expired agent

/-- A frame has gone astray or is about to. -/
def Astray (s : ChannelServer M X) : Prop := ¬s.Good ∨ s.Doomed

/-- The frame in hand is on its way to the session of the agent. -/
def InHand (s : ChannelServer M X) (agent : Agent) : Prop :=
  match s.reader with
  | .idle | .testing _ | .constructing _ | .reading _ | .looking none _ => False
  | .setting a _ | .putting a _ | .acking a _ | .running a _ => agent = a
  | .looking (some key) _ => agent.getKey = key

instance (s : ChannelServer M X) (agent : Agent) : Decidable (s.InHand agent) := by
  unfold InHand
  split <;> infer_instance

/-- A frame has found that there is a session, and has not read its key yet. -/
def BetweenReads (s : ChannelServer M X) : Prop :=
  match s.reader with
  | .reading _ => True
  | .idle | .testing _ | .constructing _ | .setting _ _ | .putting _ _ | .acking _ _
  | .looking _ _ | .running _ _ => False

instance (s : ChannelServer M X) : Decidable s.BetweenReads := by
  unfold BetweenReads
  split <;> infer_instance

/-- No callback resets the attribute while a frame is between its two reads of it, and none
completes while a frame is on its way to the session. -/
def Apart (s : ChannelServer M X) : Action X → Prop
  | .callback n => ∀ e ∈ s.cleanups[n]?, (e.phase = .resetting → ¬s.BetweenReads) ∧
      (e.phase = .closing → ¬s.InHand e.agent)
  | .textFrame _ | .construct _ | .read | .expire _ | .endTask _ | .others _ => True

instance (s : ChannelServer M X) (a : Action X) : Decidable (Apart s a) :=
  match a with
  | .callback n => inferInstanceAs (Decidable (∀ e ∈ s.cleanups[n]?,
      (e.phase = .resetting → ¬s.BetweenReads) ∧ (e.phase = .closing → ¬s.InHand e.agent)))
  | .textFrame _ | .construct _ | .read | .expire _ | .endTask _ | .others _ => isTrue trivial

/-- A callback that has completed has reset the attribute. -/
theorem Expired.reset {agent : Agent} (h : s.Expired agent) : s.Reset agent := by
  obtain ⟨e, he, hagent, hphase⟩ := h
  exact ⟨e, he, hagent, .inr hphase⟩

/-- What moving a callback does to the sessions that have expired. -/
theorem expired_set {n : ℕ} {e : ChannelCleanup} (hn : s.cleanups[n]? = some e)
    (hopen : e.phase ≠ .completed) {phase : CallbackPhase}
    (ht : t.cleanups = s.cleanups.set n { e with phase := phase }) (agent : Agent) :
    t.Expired agent ↔ s.Expired agent ∨ phase = .completed ∧ e.agent = agent := by
  unfold Expired
  rw [ht, exists_mem_set_iff_others hn, exists_mem_iff_others hn]
  constructor
  · rintro (⟨hagent, hphase⟩ | h)
    · exact .inr ⟨hphase, hagent⟩
    · exact .inl (.inr h)
  · rintro ((⟨-, hphase⟩ | h) | ⟨hphase, hagent⟩)
    · exact absurd hphase hopen
    · exact .inr h
    · exact .inl ⟨hagent, hphase⟩

/-- A step that changes neither the frame in hand nor the attribute, and lets more sessions
expire. -/
theorem doomed_iff_of_frame (hreader : t.reader = s.reader)
    (hattr : t.attr = s.attr) (hsessions : t.sessions = s.sessions) {P : Prop} {a : Agent}
    (ha : P → a ∈ s.sessions)
    (hexpired : ∀ agent, t.Expired agent ↔ s.Expired agent ∨ P ∧ a = agent) :
    t.Doomed ↔ s.Doomed ∨ P ∧ s.InHand a := by
  unfold Doomed InHand
  rw [hreader, hattr, hsessions]
  cases s.reader with
  | idle | testing | constructing => simp
  | reading => simp
  | setting b | putting b | acking b | running b => exact hexpired b
  | looking key message =>
    cases key with
    | none => simp
    | some key =>
      simp only [hexpired]
      constructor
      · rintro ⟨agent, hmem, hkey, hex | ⟨hP, rfl⟩⟩
        · exact .inl ⟨agent, hmem, hkey, hex⟩
        · exact .inr ⟨hP, hkey⟩
      · rintro (⟨agent, hmem, hkey, hex⟩ | ⟨hP, hkey⟩)
        · exact ⟨agent, hmem, hkey, .inl hex⟩
        · exact ⟨a, ha hP, hkey, .inr ⟨hP, rfl⟩⟩

theorem astray_iff_of_doomed (houtcomes : t.outcomes = s.outcomes) {P : Prop}
    (h : t.Doomed ↔ s.Doomed ∨ P) : t.Astray ↔ s.Astray ∨ P := by
  unfold Astray Good
  rw [houtcomes, h, or_assoc]

/-- A new session has not expired. -/
theorem Sound.not_expired_construct (h : s.Sound) (key : String) (message : X) :
    ¬(s.construct key message).Expired { id := s.sessions.length, hash := key } := by
  rintro ⟨e, he, hagent, -⟩
  have hlt := h.number e.agent (h.cleanups e he).1
  rw [hagent] at hlt
  exact lt_irrefl _ hlt

/-- A session that is looked up is found. -/
theorem Sound.get_of_looking (h : s.Sound) {key : String} {message : X}
    (hreader : s.reader = .looking (some key) message) :
    ∃ agent ∈ s.sessions, agent.getKey = key ∧ s.timeoutCache.get key = some agent := by
  obtain ⟨agent, hmem, rfl⟩ := h.looked key message hreader
  refine ⟨agent, hmem, rfl, h.get agent ⟨hmem, ?_⟩⟩
  rw [hreader]
  exact nofun

/-- The channel's thread alone neither dooms a frame nor saves it. -/
theorem Sound.astray_read (h : s.Sound) (hread : s.read sessionTtl = some t) :
    t.Astray ↔ s.Astray := by
  unfold ChannelServer.read at hread
  split at hread
  next => cases hread
  next => cases hread
  next message hreader =>
    cases hread
    unfold Astray Good Doomed
    rw [hreader]
    cases hattr : s.attr with
    | none => simp
    | some key => simp
  next agent message hreader =>
    cases hread
    unfold Astray Good Doomed
    rw [hreader]
    rfl
  next agent message hreader =>
    cases hread
    unfold Astray Good Doomed
    rw [hreader]
    rfl
  next agent message hreader =>
    cases hread
    unfold Astray Good Doomed
    rw [hreader]
    rfl
  next message hreader =>
    cases hread
    unfold Astray Good Doomed
    rw [hreader]
    cases hattr : s.attr with
    | none => simp
    | some key =>
      -- the attribute is the key of a live session
      obtain ⟨agent, hmem, hkey, hnot⟩ := h.attr key hattr
      refine or_congr_right (iff_of_false ?_ nofun)
      rintro ⟨a, ha, hak, hex⟩
      rw [h.key_inj a ha agent hmem (hak.trans hkey.symm)] at hex
      exact hnot (Expired.reset hex)
  next message hreader =>
    cases hread
    refine iff_of_true (.inl fun hgood => ?_) (.inr ?_)
    · obtain ⟨agent, m, heq⟩ := hgood _ (List.mem_append_right _ (List.mem_singleton_self _))
      cases heq
    · unfold Doomed
      rw [hreader]
      trivial
  next key message hreader =>
    obtain ⟨agent, hmem, hkey, hget⟩ := h.get_of_looking hreader
    rw [hget] at hread
    cases hread
    unfold Astray Good Doomed
    rw [hreader]
    refine or_congr_right ⟨fun hex => ⟨agent, hmem, hkey, hex⟩, ?_⟩
    rintro ⟨a, ha, hak, hex⟩
    rwa [h.key_inj a ha agent hmem (hak.trans hkey.symm)] at hex
  next agent message hreader =>
    cases hread
    unfold Astray Good Doomed
    rw [hreader]
    simp only [List.forall_mem_append, List.forall_mem_singleton, or_false]
    by_cases hex : s.Expired agent
    · simp [hex]
    · simp [hex]

/-- A callback dooms a frame exactly by the moves that are not kept apart from it. -/
theorem Sound.astray_callback (h : s.Sound) {n : ℕ} {e : ChannelCleanup}
    (hn : s.cleanups[n]? = some e) (hcallback : s.callback n e = some t) :
    t.Astray ↔ s.Astray ∨ ¬Apart s (.callback n) := by
  have hapart : ¬Apart s (.callback n) ↔
      e.phase = .resetting ∧ s.BetweenReads ∨ e.phase = .closing ∧ s.InHand e.agent := by
    simp only [Apart, hn, Option.mem_some_iff, forall_eq', not_and_or, Classical.not_imp, not_not]
  rw [hapart]
  unfold ChannelServer.callback at hcallback
  split at hcallback
  next thread hphase =>
    have hopen : e.phase ≠ .completed := by rw [hphase]; exact nofun
    have hmoves : t.outcomes = s.outcomes ∧ t.reader = s.reader ∧ t.attr = s.attr ∧
        t.sessions = s.sessions ∧ ∃ phase, phase ≠ .completed ∧
          t.cleanups = s.cleanups.set n { e with phase := phase } := by
      split at hcallback <;> cases hcallback
      · exact ⟨rfl, rfl, rfl, rfl, .unsubscribing _, nofun, rfl⟩
      · exact ⟨rfl, rfl, rfl, rfl, .resetting, nofun, rfl⟩
    obtain ⟨houtcomes, hreader, hattr, hsessions, phase, hne, hcleanups⟩ := hmoves
    refine astray_iff_of_doomed houtcomes ?_
    have hexpired : ∀ agent, t.Expired agent ↔ s.Expired agent ∨ False ∧ e.agent = agent := by
      intro agent
      rw [expired_set hn hopen hcleanups]
      simp [hne]
    rw [doomed_iff_of_frame hreader hattr hsessions False.elim hexpired]
    simp [hphase]
  next hphase =>
    -- the reset dooms the frame that is between its reads
    have hopen : e.phase ≠ .completed := by rw [hphase]; exact nofun
    obtain ⟨houtcomes, hreader, hattr, hsessions, hcleanups⟩ : t.outcomes = s.outcomes ∧
        t.reader = s.reader ∧ t.attr = none ∧ t.sessions = s.sessions ∧
          t.cleanups = s.cleanups.set n { e with phase := .closing } := by
      cases hcallback
      exact ⟨rfl, rfl, rfl, rfl, rfl⟩
    have hexpired : ∀ agent, t.Expired agent ↔ s.Expired agent := by
      intro agent
      rw [expired_set hn hopen hcleanups]
      simp
    refine astray_iff_of_doomed houtcomes ?_
    unfold Doomed BetweenReads
    rw [hreader, hattr, hsessions]
    cases s.reader with
    | reading => simp [hphase]
    | looking key message =>
      cases key with
      | none => simp [hphase]
      | some key => simp [hexpired, hphase]
    | _ => simp [hexpired, hphase]
  next hphase =>
    -- the return dooms the frame that is on its way to the session
    have hopen : e.phase ≠ .completed := by rw [hphase]; exact nofun
    obtain ⟨houtcomes, hreader, hattr, hsessions, hcleanups⟩ : t.outcomes = s.outcomes ∧
        t.reader = s.reader ∧ t.attr = s.attr ∧ t.sessions = s.sessions ∧
          t.cleanups = s.cleanups.set n { e with phase := .completed } := by
      cases hcallback
      exact ⟨rfl, rfl, rfl, rfl, rfl⟩
    have hexpired : ∀ agent, t.Expired agent ↔ s.Expired agent ∨ True ∧ e.agent = agent := by
      intro agent
      rw [expired_set hn hopen hcleanups]
      simp
    refine astray_iff_of_doomed houtcomes ?_
    rw [doomed_iff_of_frame hreader hattr hsessions
      (fun _ => (h.cleanups e (List.mem_of_getElem? hn)).1) hexpired]
    simp [hphase]
  next => cases hcallback

/-- **What one step does.** A frame goes astray, or is about to, from the first move of a callback
that is not kept apart from it. -/
theorem Sound.astray_step (h : s.Sound) {a : Action X}
    (hst : (machine M X sessionTtl).step s a = some t) :
    t.Astray ↔ s.Astray ∨ ¬Apart s a := by
  -- a step that does not let a session expire
  have hframe : ∀ {u : ChannelServer M X}, u.outcomes = s.outcomes → u.reader = s.reader →
      u.attr = s.attr → u.sessions = s.sessions →
      (∀ agent, u.Expired agent ↔ s.Expired agent) → (u.Astray ↔ s.Astray) := by
    intro u houtcomes hreader hattr hsessions hexpired
    have hdoomed := doomed_iff_of_frame hreader hattr hsessions (P := False) (a := ⟨0, ""⟩)
      False.elim fun agent => by rw [hexpired, false_and, or_false]
    rw [astray_iff_of_doomed houtcomes hdoomed, false_and, or_false]
  cases step_cases hst with
  | @textFrame message hreader =>
    have hs : ¬s.Doomed := by
      unfold Doomed
      rw [hreader]
      exact not_false
    exact astray_iff_of_doomed (by rfl)
      (iff_of_false not_false (not_or.mpr ⟨hs, fun hne => hne trivial⟩))
  | @construct key message hreader hkey =>
    have hs : ¬s.Doomed := by
      unfold Doomed
      rw [hreader]
      exact not_false
    exact astray_iff_of_doomed (by rfl) (iff_of_false (h.not_expired_construct key message)
      (not_or.mpr ⟨hs, fun hne => hne trivial⟩))
  | read hread => simpa [Apart] using h.astray_read hread
  | @expire i task agent cache =>
    simp only [Apart, not_true_eq_false, or_false]
    refine hframe rfl rfl rfl rfl fun a => ?_
    unfold Expired
    simp
  | callback hn hcallback => exact h.astray_callback hn hcallback
  | endTask =>
    simp only [Apart, not_true_eq_false, or_false]
    exact hframe rfl rfl rfl rfl fun a => Iff.rfl
  | others =>
    simp only [Apart, not_true_eq_false, or_false]
    exact hframe rfl rfl rfl rfl fun a => Iff.rfl

/-! ### Whole runs -/

theorem not_astray_init : ¬Astray ({} : ChannelServer M X) := by
  rintro (hgood | hdoomed)
  · exact hgood (List.forall_mem_nil _)
  · exact hdoomed

/-- A frame is astray at the end of a schedule exactly if some callback was not kept apart from
it. -/
theorem Sound.astray_run (h : s.Sound) {as : List (Action X)}
    (hrun : (machine M X sessionTtl).run s as = some t) :
    t.Astray ↔ s.Astray ∨ ¬(machine M X sessionTtl).Along Apart s as := by
  induction as generalizing s with
  | nil =>
    rw [Machine.run_nil, Option.some.injEq] at hrun
    rw [hrun]
    simp [Machine.Along]
  | cons a as ih =>
    obtain ⟨u, hu, hrun⟩ := Machine.run_cons_eq_some.mp hrun
    rw [ih (h.step hu) hrun, h.astray_step hu, Machine.along_cons_of_step hu, not_and_or, or_assoc]

/-- **No frame goes to a dead session, exactly if the callbacks keep apart from the frames.** For
every schedule: if no expiry callback resets the attribute while a frame is between its two reads,
and none completes while a frame is on its way to the session, then every frame is put on the queue
of a session whose callback has not completed, and every lookup has a key and gives an agent. And
if all frames have been handled in the end, this is the only way. -/
theorem every_frame_live_iff {as : List (Action X)}
    (h : (machine M X sessionTtl).run {} as = some t) :
    ((machine M X sessionTtl).Along Apart {} as → t.Good) ∧
      (t.reader = .idle → (t.Good ↔ (machine M X sessionTtl).Along Apart {} as)) := by
  have hastray := sound_init.astray_run h
  rw [or_iff_right not_astray_init] at hastray
  constructor
  · intro halong
    by_contra hbad
    exact hastray.mp (.inl hbad) halong
  · intro hidle
    have hdoomed : ¬t.Doomed := by
      rw [Doomed]
      rw [hidle]
      exact not_false
    rw [Astray, or_iff_left hdoomed] at hastray
    exact not_iff_not.mp hastray

/-- The first frame on a channel: a session is made for it and put into the cache. -/
def firstFrame (message key : String) : List (Action String) :=
  [.textFrame message, .read, .construct key, .read, .read, .read, .read]

/-- The watcher pops the first entry once it is due, and a task starts its callback, which
unsubscribes the agent. -/
def expiry : List (Action String) :=
  [.others (.tick 120000), .others .wake, .others .test, .others .poll, .others (.copy 0),
    .expire 0, .callback 0, .callback 0, .callback 0, .callback 0, .callback 0, .callback 0]

/-- A frame, the expiry of its session, and a frame for which another one is made. -/
def twoFrames : List (Action String) :=
  firstFrame "a" "key" ++ expiry ++ [.callback 0, .callback 0] ++ firstFrame "b" "other"

/-- The second frame comes when the callback has completed. -/
theorem every_frame_live_iff_two_frames :
    ∃ t, (machine Unit String 120000).run {} twoFrames = some t ∧ t.reader = .idle ∧
      (t.Good ↔ (machine Unit String 120000).Along Apart {} twoFrames) := by
  have hrun : ((machine Unit String 120000).run {} twoFrames).any
      (fun t => t.reader = .idle) = true := by decide
  obtain ⟨t, ht, hidle⟩ := (Option.any_eq_true _ _).mp hrun
  exact ⟨t, ht, of_decide_eq_true hidle, (every_frame_live_iff ht).2 (of_decide_eq_true hidle)⟩

/-- A frame goes astray: the attribute is reset between its two reads and it is lost, or the
callback returns just before its message is put on the queue. -/
theorem frames_go_astray :
    (∃ s, (machine Unit String 120000).Reaches {} s ∧ ¬s.Good ∧ .nullKey "b" ∈ s.outcomes) ∧
      ∃ s, (machine Unit String 120000).Reaches {} s ∧ ¬s.Good ∧
        .queued ⟨0, "key"⟩ "b" true ∈ s.outcomes := by
  constructor
  · obtain ⟨s, hs, hmem⟩ := Machine.Reaches.exists_of_run
      (m := machine Unit String 120000) (s := {}) (P := fun s => .nullKey "b" ∈ s.outcomes)
      (firstFrame "a" "key" ++ expiry ++ [Action.textFrame "b", .read, .callback 0, .read, .read]) (by decide)
    refine ⟨s, hs, fun hgood => ?_, hmem⟩
    obtain ⟨agent, message, heq⟩ := hgood _ hmem
    cases heq
  · obtain ⟨s, hs, hmem⟩ := Machine.Reaches.exists_of_run
      (m := machine Unit String 120000) (s := {})
      (P := fun s => .queued ⟨0, "key"⟩ "b" true ∈ s.outcomes) (firstFrame "a" "key" ++ expiry ++
        [Action.textFrame "b", .read, .read, .read, .callback 0, .callback 0, .read]) (by decide)
    refine ⟨s, hs, fun hgood => ?_, hmem⟩
    obtain ⟨agent, message, heq⟩ := hgood _ hmem
    cases heq

end ChannelServer

end Gwems
