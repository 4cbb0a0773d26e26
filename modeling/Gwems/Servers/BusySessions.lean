import Gwems.Library.Lease
import Gwems.Servers.SessionExpiry

/-!
# Busy sessions do not expire

`runSocketMessage` would renew the entry of its session with every message, but "in some cases
there will be a stream as fast as 60 hz and that would stress the timeoutCache": it renews it at
most once in ten seconds, after the time in `next10sec`. So the deadline of a session is not
`sessionTtl` after its last message, and most messages leave it where it is.

A session is a lease (`Gwems.Library.Lease`) whose holder gives a sign of life with each message,
and `BusySession.lease_step` is the simulation: each step of a server leaves the lease of a session
alone or is one `Lease.beat`. `busy_session_never_expires` follows: as long as less than
`sessionTtl` minus ten seconds have passed since the session was made or has last run a message,
its deadline is ahead and the watcher has not popped its entry.

The watcher tests the first element of `timedQ` without synchronization and pops whatever is first
later. `OneStep` makes the two one step; what goes wrong otherwise is in
`Gwems.Util.TimeoutCacheFiring`.
-/

namespace Gwems

namespace TimeoutCache

variable {V R : Type*} {s t : TimeoutCache V R} {key : String}

/-! ### What the watcher pops is due -/

/-- The watcher has read the time already, and what it is about to pop is due. -/
structure OnDuty (s : TimeoutCache V R) : Prop where
  read : ∀ time, s.watcher = .testing time ∨ s.watcher = .polling time → time ≤ s.now
  due : ∀ time, s.watcher = .polling time → s.firstIsDue time = true

theorem onDuty_init : OnDuty ({} : TimeoutCache V R) where
  read _ h := h.elim nofun nofun
  due _ h := nomatch h

/-- A step that leaves the watcher alone while it is not about to pop. -/
theorem OnDuty.frame (h : s.OnDuty) (hpolling : ∀ time, s.watcher ≠ .polling time)
    (hwatcher : t.watcher = s.watcher) (hnow : s.now ≤ t.now) : t.OnDuty := by
  refine ⟨fun time htime => ?_, fun time htime => absurd (hwatcher ▸ htime) (hpolling time)⟩
  rw [hwatcher] at htime
  exact (h.read time htime).trans hnow

/-- Nothing comes between the test and the pop. -/
theorem OnDuty.step (h : s.OnDuty) {a : Action V R}
    (hone : ∀ time, s.watcher = .polling time → a = .poll)
    (hst : (machine V R).step s a = some t) : t.OnDuty := by
  have hpolling : a ≠ .poll → ∀ time, s.watcher ≠ .polling time :=
    fun hne time htime => hne (hone time htime)
  cases a with
  | wake =>
    simp only [machine] at hst
    split at hst
    next =>
      cases hst
      refine ⟨fun time htime => ?_, fun time htime => by cases htime⟩
      rcases htime with htime | htime <;> cases htime
      exact le_refl _
    next => cases hst
  | test =>
    simp only [machine] at hst
    split at hst
    next time₀ hw =>
      cases hst
      have hle := h.read time₀ (.inl hw)
      by_cases hfirst : s.firstIsDue time₀ = true
      · simp only [hfirst, if_true]
        refine ⟨fun time htime => ?_, fun time htime => ?_⟩
        · rcases htime with htime | htime <;> cases htime
          exact hle
        · cases htime
          exact hfirst
      · simp only [hfirst]
        refine ⟨fun time htime => ?_, fun time htime => by cases htime⟩
        rcases htime with htime | htime <;> cases htime
    next => cases hst
  | poll =>
    simp only [machine] at hst
    split at hst
    next time₀ hw =>
      cases hst
      refine ⟨fun time htime => ?_, fun time htime => by cases htime⟩
      rcases htime with htime | htime <;> cases htime
      exact h.read time₀ (.inr hw)
    next => cases hst
  | tick ms =>
    cases hst
    exact h.frame (hpolling (by rintro ⟨⟩)) rfl (Int.le_add_of_nonneg_right (Int.natCast_nonneg ms))
  | put k value ttl notified =>
    cases hst
    exact h.frame (hpolling (by rintro ⟨⟩)) put_watcher put_now.ge
  | setTtl k ttl =>
    cases hst
    exact h.frame (hpolling (by rintro ⟨⟩)) (setTtl_watcher ttl) (setTtl_now ttl).ge
  | remove k =>
    have hnow : t.now = s.now := now_step (by rintro _ ⟨⟩) hst
    cases hst
    exact h.frame (hpolling (by rintro ⟨⟩)) remove_watcher hnow.ge
  | copy i | start i | finish i returns | close i =>
    have hnow : t.now = s.now := now_step (by rintro _ ⟨⟩) hst
    refine h.frame (hpolling (by rintro ⟨⟩)) ?_ hnow.ge
    simp only [machine, expire_eq] at hst
    split at hst
    next => cases hst; rfl
    next => cases hst

/-! ### Entries that have not been popped -/

/-- No pool task has been handed the object of the key. -/
def Unpopped (s : TimeoutCache V R) (key : String) : Prop :=
  ∀ holder ∈ s.cache key, ∀ task ∈ s.tasks, task.head ≠ some holder.key

/-- What is about to be popped is due, so that it is not an entry with its deadline ahead. -/
theorem OnDuty.head?_ne (h : s.OnDuty) {time : ℤ} (hw : s.watcher = .polling time)
    {holder : ObjectHolder V} (hk : s.cache key = some holder) (hahead : s.now < s.deadline key) :
    s.timedQ.head? ≠ some holder.key := by
  intro hhead
  have hdue := h.due time hw
  obtain ⟨q, hq⟩ := List.head?_eq_some_iff.mp hhead
  rw [firstIsDue, hq] at hdue
  have hexpires : (s.timedKeys holder.key).expires ≤ time := of_decide_eq_true hdue
  rw [deadline, hk, Option.elim_some] at hahead
  exact absurd (hexpires.trans (h.read time (.inr hw))) (not_le.mpr hahead)

/-- Only a pop hands an object to a task. -/
theorem Unpopped.step (h : s.Unpopped key) {a : Action V R} (hput : NotPut key s a)
    (hpop : ∀ time, s.watcher = .polling time → a = .poll →
      ∀ holder ∈ s.cache key, s.timedQ.head? ≠ some holder.key)
    (hst : (machine V R).step s a = some t) : t.Unpopped key := by
  intro holder hk task htask
  rw [cache_step hput hst] at hk
  cases a with
  | poll =>
    simp only [machine] at hst
    split at hst
    next time hw =>
      cases hst
      rcases List.mem_append.mp htask with htask | htask
      · exact h holder hk task htask
      · rw [List.mem_singleton.mp htask]
        exact hpop time hw rfl holder hk
    next => cases hst
  | _ =>
    obtain ⟨ms, -, rfl⟩ | ⟨k, value', ttl, notified, -, rfl⟩ | ⟨k, ttl, -, rfl⟩ | ⟨k, -, rfl⟩ |
      ⟨watcher, rfl⟩ | ⟨time, ha, -⟩ | ⟨i, task', phase, hi, rfl, -⟩ := step_cases hst
    · exact h holder hk task htask
    · rw [put_tasks] at htask
      exact h holder hk task htask
    · rw [setTtl_tasks] at htask
      exact h holder hk task htask
    · rw [remove_tasks] at htask
      exact h holder hk task htask
    · exact h holder hk task htask
    · cases ha
    · rcases List.mem_or_eq_of_mem_set htask with htask | rfl
      · exact h holder hk task htask
      · exact h holder hk task' (List.mem_of_getElem? hi)

end TimeoutCache

namespace SessionServer

variable {M : Type*} {s t : SessionServer M} {sessionTtl : ℤ} {session : SessionAgent} {j : ℕ}

/-! ### What a step does to the cache -/

/-- A step of the server does at most one thing with the cache. It puts new keys only, removes
nothing, and pops only where the watcher does. -/
theorem timeoutCache_step {a : Action} (ha : Fresh s a)
    (hst : (machine M sessionTtl).step s a = some t) :
    t.timeoutCache = s.timeoutCache ∨
      ∃ b, (TimeoutCache.machine _ _).step s.timeoutCache b = some t.timeoutCache ∧
        (∀ key holder, s.timeoutCache.cache key = some holder →
          TimeoutCache.NotPut key s.timeoutCache b) ∧
        (b = .poll ↔ a = .cache .poll) := by
  have hput : ∀ {key : String} {agent : Agent} {ttl : ℤ} {callbacks : List ExpiryCallback},
      s.timeoutCache.cache key = none → ∀ k holder, s.timeoutCache.cache k = some holder →
        TimeoutCache.NotPut k s.timeoutCache (.put key (some agent) ttl callbacks) := by
    intro key agent ttl callbacks hfresh k holder hk
    rintro rfl
    rw [hfresh] at hk
    cases hk
  cases step_cases hst with
  | textFrame ctx key message =>
    rw [executeChannelMessage, ensureSessionAgent]
    cases s.attr ctx with
    | none => exact .inr ⟨.put key _ sessionTtl _, rfl, hput ha, by constructor <;> rintro ⟨⟩⟩
    | some k =>
      left
      simp only
      cases s.timeoutCache.get k with
      | none => rfl
      | some agent => rfl
  | http key message => exact .inr ⟨.put key _ 1 _, rfl, hput ha, by constructor <;> rintro ⟨⟩⟩
  | closeFrame ctx =>
    rw [closeFrame]
    cases s.attr ctx with
    | some k =>
      exact .inr ⟨.setTtl k 0, rfl, fun _ _ _ => trivial, by constructor <;> rintro ⟨⟩⟩
    | none => exact .inl rfl
  | runMessage hj =>
    rename_i x message hrunner hrunning
    rw [runSocketMessage]
    split
    · split
      · exact .inl rfl
      · split
        · exact .inr ⟨.setTtl x.agent.getKey sessionTtl, rfl, fun _ _ _ => trivial,
            by constructor <;> rintro ⟨⟩⟩
        · exact .inl rfl
    · exact .inl rfl
  | @cache b cache hallows hcache =>
    refine .inr ⟨b, hcache, fun key holder hk => ?_, ?_⟩
    · obtain ⟨hput, -⟩ := ne_of_cacheAllows hallows
      cases b with
      | put key value ttl notified => exact absurd rfl (hput key value ttl notified)
      | _ => trivial
    · rw [Action.cache.injEq]
  | @expire i _ _ _ _ _ hcache =>
    exact .inr ⟨.start i, hcache, fun _ _ _ => trivial, by constructor <;> rintro ⟨⟩⟩
  | endTask _ _ hcache =>
    exact .inr ⟨.finish _ true, hcache, fun _ _ _ => trivial, by constructor <;> rintro ⟨⟩⟩
  | deliver | mailbox | advance | cleanup | complete => exact .inl rfl

/-! ### What a step does to the lease of a session -/

/-- The session with a number goes on, with the throttle and the deadline given. -/
def Leases (t : SessionServer M) (j : ℕ) (session : SessionAgent) (next10sec deadline : ℤ) : Prop :=
  ∃ y, t.sessions[j]? = some y ∧ y.agent = session.agent ∧ y.ctx = session.ctx ∧
    y.next10sec = next10sec ∧ t.timeoutCache.deadline session.agent.getKey = deadline

/-- The channel of session `j` stays open: it is not closed, and its messages find it open. -/
def StaysOpen (j : ℕ) (s : SessionServer M) : Action → Prop
  | .closeFrame ctx => ∀ session ∈ s.sessions[j]?, session.ctx ≠ some ctx
  | .runMessage i _ isOpen => i = j → isOpen = true
  | .textFrame _ _ _ | .http _ _ | .deliver _ | .mailbox _ _ | .advance _ | .cache _ | .expire _
  | .cleanup _ | .endTask _ => True

instance (s : SessionServer M) (a : Action) : Decidable (StaysOpen j s a) :=
  match a with
  | .closeFrame ctx =>
    inferInstanceAs (Decidable (∀ session ∈ s.sessions[j]?, session.ctx ≠ some ctx))
  | .runMessage i _ isOpen => inferInstanceAs (Decidable (i = j → isOpen = true))
  | .textFrame _ _ _ | .http _ _ | .deliver _ | .mailbox _ _ | .advance _ | .cache _ | .expire _
  | .cleanup _ | .endTask _ => isTrue trivial

/-- The action is an execution of `runSocketMessage` of session `j`. -/
def isRun (j : ℕ) : Action → Bool
  | .runMessage i _ _ => i = j
  | .textFrame _ _ _ | .http _ _ | .closeFrame _ | .deliver _ | .mailbox _ _ | .advance _ | .cache _
  | .expire _ | .cleanup _ | .endTask _ => false

theorem leases_setSession_self (hj : s.sessions[j]? = some session) {x : SessionAgent}
    (hagent : x.agent = session.agent) (hctx : x.ctx = session.ctx) :
    (s.setSession j x).Leases j session x.next10sec
      (s.timeoutCache.deadline session.agent.getKey) :=
  ⟨x, List.getElem?_set_self (List.getElem?_eq_some_iff.mp hj).1, hagent, hctx, rfl, rfl⟩

theorem leases_setSession_of_ne (hj : s.sessions[j]? = some session) {i : ℕ} (hij : i ≠ j)
    (x : SessionAgent) :
    (s.setSession i x).Leases j session session.next10sec
      (s.timeoutCache.deadline session.agent.getKey) :=
  ⟨session, (List.getElem?_set_ne hij).trans hj, rfl, rfl, rfl, rfl⟩

theorem leases_newSession (h : s.Kept) (hj : s.sessions[j]? = some session) {key : String}
    (hfresh : s.timeoutCache.cache key = none) (ctx : Option ℕ) (ttl : ℤ) :
    (s.newSession key ctx ttl).Leases j session session.next10sec
      (s.timeoutCache.deadline session.agent.getKey) := by
  refine ⟨session, ?_, rfl, rfl, rfl, h.deadline_newSession hj hfresh ctx ttl⟩
  rw [SessionServer.newSession, List.getElem?_append_left (List.getElem?_eq_some_iff.mp hj).1]
  exact hj

variable (sessionTtl) in
/-- What running one of its messages on an open channel does to the lease of a session. -/
theorem leases_runSocketMessage (h : s.Kept) (hj : s.sessions[j]? = some session) {ctx : ℕ}
    (hctx : session.ctx = some ctx) (message : SocketMessage) :
    let renews := session.next10sec < s.timeoutCache.now
    (s.runSocketMessage sessionTtl j session message true).Leases j session
      (if renews then s.timeoutCache.now + 10 * 1000 else session.next10sec)
      (if renews then s.timeoutCache.now + sessionTtl
        else s.timeoutCache.deadline session.agent.getKey) := by
  intro renews
  rw [runSocketMessage]
  by_cases hrenews : session.next10sec < s.timeoutCache.now
  · have hdeadline := h.deadline_setTtl hj session.agent.getKey sessionTtl
    rw [if_pos rfl] at hdeadline
    have hsome : session.ctx.isNone = false := by rw [hctx]; rfl
    simp only [hrenews, renews, hsome, if_true, Bool.false_eq_true, if_false]
    rw [← hdeadline]
    exact leases_setSession_self (s := { s with
      timeoutCache := s.timeoutCache.setTtl session.agent.getKey sessionTtl }) hj rfl rfl
  · simp only [hrenews, renews, if_false]
    exact leases_setSession_self hj rfl rfl

/-- Running a message of another session leaves the lease alone. -/
theorem leases_runSocketMessage_of_ne (h : s.Kept) (hj : s.sessions[j]? = some session) {i : ℕ}
    {x : SessionAgent} (hi : s.sessions[i]? = some x) (hij : i ≠ j) (message : SocketMessage)
    (isOpen : Bool) :
    (s.runSocketMessage sessionTtl i x message isOpen).Leases j session session.next10sec
      (s.timeoutCache.deadline session.agent.getKey) := by
  have hkey : x.agent.getKey ≠ session.agent.getKey := fun hkey => hij (h.key_inj hi hj hkey)
  have hdeadline := h.deadline_setTtl hj x.agent.getKey sessionTtl
  rw [if_neg hkey] at hdeadline
  rw [runSocketMessage]
  split
  · split
    · exact leases_setSession_of_ne hj hij _
    · cases isOpen with
      | true =>
        rw [← hdeadline]
        exact leases_setSession_of_ne (s := { s with
          timeoutCache := s.timeoutCache.setTtl x.agent.getKey sessionTtl }) hj hij _
      | false => exact leases_setSession_of_ne hj hij _
  · exact leases_setSession_of_ne hj hij _

/-- A frame that closes another channel leaves the lease alone. -/
theorem leases_closeFrame (h : s.Kept) (hj : s.sessions[j]? = some session) {ctx : ℕ}
    (hctx : session.ctx ≠ some ctx) :
    (s.closeFrame ctx).Leases j session session.next10sec
      (s.timeoutCache.deadline session.agent.getKey) := by
  rw [closeFrame]
  split
  next k hattr =>
    obtain ⟨x, hx, rfl, hxctx⟩ := h.attr ctx k hattr
    obtain ⟨i, hi⟩ := List.mem_iff_getElem?.mp hx
    have hkey : x.agent.getKey ≠ session.agent.getKey := by
      intro hkey
      have hij := h.key_inj hi hj hkey
      subst hij
      rw [hi, Option.some.injEq] at hj
      exact hctx (hj ▸ hxctx)
    have hdeadline := h.deadline_setTtl hj x.agent.getKey 0
    rw [if_neg hkey] at hdeadline
    exact ⟨session, hj, rfl, rfl, rfl, hdeadline⟩
  next => exact ⟨session, hj, rfl, rfl, rfl, rfl⟩

/-- Every other step leaves the lease of a session alone. -/
theorem leases_step (h : s.Kept) {a : Action} (hfresh : Fresh s a) (hopen : StaysOpen j s a)
    (hst : (machine M sessionTtl).step s a = some t) (hj : s.sessions[j]? = some session)
    (hrun : isRun j a = false) :
    t.Leases j session session.next10sec (s.timeoutCache.deadline session.agent.getKey) := by
  -- the session is not replaced and the cache keeps its deadline
  have hcache : ∀ {u : SessionServer M}, u.sessions = s.sessions →
      u.timeoutCache.deadline session.agent.getKey =
        s.timeoutCache.deadline session.agent.getKey →
      u.Leases j session session.next10sec (s.timeoutCache.deadline session.agent.getKey) :=
    fun hsessions hdeadline => ⟨session, hsessions ▸ hj, rfl, rfl, rfl, hdeadline⟩
  -- another field of a session is replaced
  have hset : ∀ {u : SessionServer M} {i : ℕ} {x x' : SessionAgent}, u.sessions = s.sessions →
      u.timeoutCache = s.timeoutCache → s.sessions[i]? = some x → x'.agent = x.agent →
      x'.ctx = x.ctx → x'.next10sec = x.next10sec →
      (u.setSession i x').Leases j session session.next10sec
        (s.timeoutCache.deadline session.agent.getKey) := by
    intro u i x x' hsessions htimeoutCache hi hagent hctx hnext
    have hju : u.sessions[j]? = some session := hsessions ▸ hj
    by_cases hij : i = j
    · subst hij
      rw [hj, Option.some.injEq] at hi
      subst hi
      rw [← hnext, ← htimeoutCache]
      exact leases_setSession_self hju hagent hctx
    · rw [← htimeoutCache]
      exact leases_setSession_of_ne hju hij x'
  cases step_cases hst with
  | textFrame ctx key message =>
    rw [executeChannelMessage, ensureSessionAgent]
    cases s.attr ctx with
    | none => exact leases_newSession h hj hfresh (some ctx) sessionTtl
    | some k =>
      simp only
      cases s.timeoutCache.get k with
      | none => exact hcache rfl rfl
      | some agent => exact hcache rfl rfl
  | http key message => exact leases_newSession h hj hfresh none 1
  | closeFrame ctx => exact leases_closeFrame h hj (hopen session hj)
  | deliver _ hi => exact hset rfl rfl hi rfl rfl rfl
  | mailbox hi => exact hset rfl rfl hi rfl rfl rfl
  | runMessage hi =>
    exact leases_runSocketMessage_of_ne h hj hi (of_decide_eq_false hrun) _ _
  | @advance _ _ _ p' g hi => exact hset (u := { s with global := g }) rfl rfl hi rfl rfl rfl
  | @cache b _ hallows hst' =>
    obtain ⟨hput, hsetTtl, hremove, -⟩ := ne_of_cacheAllows hallows
    refine hcache rfl (h.deadline_eq hj ⟨?_, hremove⟩ hsetTtl hst')
    cases b with
    | put key value ttl notified => exact absurd rfl (hput key value ttl notified)
    | _ => trivial
  | expire _ _ hst' =>
    exact hcache rfl (h.deadline_eq hj (a := .start _) ⟨trivial, by rintro _ ⟨⟩⟩
      (by rintro _ _ ⟨⟩) hst')
  | endTask _ _ hst' =>
    exact hcache rfl (h.deadline_eq hj (a := .finish _ true) ⟨trivial, by rintro _ ⟨⟩⟩
      (by rintro _ _ ⟨⟩) hst')
  | cleanup => exact hcache rfl rfl
  | complete => exact hcache rfl rfl

/-- The entry of a new session has not been popped. -/
theorem Kept.unpopped_newSession (h : s.Kept) {key : String}
    (hfresh : s.timeoutCache.cache key = none) (ctx : Option ℕ) (ttl : ℤ) :
    (s.newSession key ctx ttl).timeoutCache.Unpopped key := by
  intro holder hk task htask hhead
  rw [SessionServer.newSession, TimeoutCache.put_cache, TimeoutCache.put_ref_of_none hfresh,
    Function.update_self, Option.mem_some_iff] at hk
  rw [SessionServer.newSession, TimeoutCache.put_tasks] at htask
  rw [← hk] at hhead
  exact lt_irrefl _ (h.owned.heads task htask _ hhead)

variable (sessionTtl) in
theorem Kept.unpopped_executeChannelMessage (h : s.Kept) {ctx : ℕ} (hattr : s.attr ctx = none)
    {key : String} (hfresh : s.timeoutCache.cache key = none) (message : SocketMessage) :
    (s.executeChannelMessage sessionTtl ctx key message).timeoutCache.Unpopped key := by
  simp only [SessionServer.executeChannelMessage, SessionServer.ensureSessionAgent, hattr]
  exact h.unpopped_newSession hfresh (some ctx) sessionTtl

end SessionServer

/-! ### Busy sessions -/

/-- A server, and the time when one of its sessions was made or has last run a message. -/
structure BusySession (M : Type*) where
  server : SessionServer M := {}
  last : ℤ := 0

namespace BusySession

open SessionServer (Fresh StaysOpen isRun)

variable {M : Type*} {s t : BusySession M} {sessionTtl : ℤ} {session : SessionAgent} {j ctx : ℕ}

/-- The time. -/
def now (s : BusySession M) : ℤ := s.server.timeoutCache.now

/-- A server that is observed for its session `j`. Until that is made, `last` is the time. -/
def machine (M : Type*) (sessionTtl : ℤ) (j : ℕ) :
    Machine (BusySession M) SessionServer.Action where
  step s a := ((SessionServer.machine M sessionTtl).step s.server a).map fun server =>
    { server := server
      last := if isRun j a ∨ s.server.sessions.length ≤ j then s.now else s.last }

/-- What a step does to the server and to the last sign of life. -/
theorem step_cases {a : SessionServer.Action} (hst : (machine M sessionTtl j).step s a = some t) :
    (SessionServer.machine M sessionTtl).step s.server a = some t.server ∧
      t.last = if isRun j a ∨ s.server.sessions.length ≤ j then s.now else s.last := by
  obtain ⟨server, hserver, rfl⟩ := Option.map_eq_some_iff.mp hst
  exact ⟨hserver, rfl⟩

/-- Less than `sessionTtl` minus ten seconds pass between the messages of session `j`. -/
def InTime (sessionTtl : ℤ) (j : ℕ) (s : BusySession M) : SessionServer.Action → Prop
  | .cache (.tick ms) =>
    j < s.server.sessions.length → s.now + ms < s.last + (sessionTtl - 10 * 1000)
  | .textFrame _ _ _ | .http _ _ | .closeFrame _ | .deliver _ | .mailbox _ _ | .runMessage _ _ _
  | .advance _ | .cache _ | .expire _ | .cleanup _ | .endTask _ => True

instance (s : BusySession M) (a : SessionServer.Action) : Decidable (InTime sessionTtl j s a) :=
  match a with
  | .cache (.tick ms) => inferInstanceAs (Decidable
      (j < s.server.sessions.length → s.now + ms < s.last + (sessionTtl - 10 * 1000)))
  | .cache (.put _ _ _ _) | .cache (.setTtl _ _) | .cache (.remove _) | .cache .wake | .cache .test
  | .cache .poll | .cache (.copy _) | .cache (.start _) | .cache (.finish _ _) | .cache (.close _)
  | .textFrame _ _ _ | .http _ _ | .closeFrame _ | .deliver _ | .mailbox _ _ | .runMessage _ _ _
  | .advance _ | .expire _ | .cleanup _ | .endTask _ => isTrue trivial

/-- The pop of the watcher. -/
def isPoll : SessionServer.Action → Bool
  | .cache .poll => true
  | _ => false

theorem isPoll_iff {a : SessionServer.Action} : isPoll a = true ↔ a = .cache .poll := by
  constructor
  · intro ha
    unfold isPoll at ha
    split at ha
    next => rfl
    next => cases ha
  · rintro rfl
    rfl

/-- The watcher pops at once what it has found due. -/
def OneStep (s : SessionServer M) (a : SessionServer.Action) : Prop :=
  match s.timeoutCache.watcher with
  | .polling _ => isPoll a = true
  | .sleeping | .testing _ => True

instance (s : SessionServer M) (a : SessionServer.Action) : Decidable (OneStep s a) := by
  unfold OneStep
  cases s.timeoutCache.watcher <;> infer_instance

/-- A step while session `j` is busy on an open channel. -/
def Busy (sessionTtl : ℤ) (j : ℕ) (s : BusySession M) (a : SessionServer.Action) : Prop :=
  Fresh s.server a ∧ StaysOpen j s.server a ∧ InTime sessionTtl j s a ∧ OneStep s.server a

instance (s : BusySession M) (a : SessionServer.Action) : Decidable (Busy sessionTtl j s a) :=
  inferInstanceAs (Decidable (_ ∧ _ ∧ _ ∧ _))

/-- The lease of a session on its entry. -/
def lease (s : BusySession M) (session : SessionAgent) : Lease where
  last := s.last
  next := session.next10sec
  deadline := s.server.timeoutCache.deadline session.agent.getKey

/-- **A session is a lease.** A step leaves the lease of session `j` alone, but for the executions
of `runSocketMessage`, which are signs of life. -/
theorem lease_step (hkept : s.server.Kept) {a : SessionServer.Action} (ha : Busy sessionTtl j s a)
    (hst : (machine M sessionTtl j).step s a = some t)
    (hj : s.server.sessions[j]? = some session) (hctx : session.ctx = some ctx) :
    ∃ y, t.server.sessions[j]? = some y ∧ y.agent = session.agent ∧ y.ctx = session.ctx ∧
      t.lease y = if isRun j a then (s.lease session).beat (10 * 1000) sessionTtl s.now
        else s.lease session := by
  obtain ⟨hserver, hlast⟩ := step_cases hst
  obtain ⟨hfresh, hopen, -, -⟩ := ha
  have hlt : ¬s.server.sessions.length ≤ j := not_le.mpr (List.getElem?_eq_some_iff.mp hj).1
  cases hrun : isRun j a with
  | false =>
    obtain ⟨y, hy, hagent, hctx', hnext, hdeadline⟩ :=
      SessionServer.leases_step hkept hfresh hopen hserver hj hrun
    refine ⟨y, hy, hagent, hctx', ?_⟩
    rw [hrun] at hlast
    simp only [Bool.false_eq_true, false_or, hlt, if_false] at hlast ⊢
    rw [lease, lease, hlast, hagent, hnext, hdeadline]
  | true =>
    rw [hrun] at hlast
    simp only [true_or, if_true] at hlast ⊢
    generalize hu : t.server = u at hserver
    cases SessionServer.step_cases hserver with
    | @runMessage i _ isOpen x message hi =>
      have hij : i = j := of_decide_eq_true hrun
      subst hij
      rw [hj, Option.some.injEq] at hi
      subst hi
      have hisOpen : isOpen = true := hopen rfl
      subst hisOpen
      obtain ⟨y, hy, hagent, hctx', hnext, hdeadline⟩ :=
        SessionServer.leases_runSocketMessage sessionTtl hkept hj hctx message
      refine ⟨y, hu ▸ hy, hagent, hctx', ?_⟩
      rw [lease, lease, Lease.beat, Lease.grant, hlast, hu, hagent, hnext, hdeadline, now]
      by_cases hrenews : session.next10sec < s.server.timeoutCache.now
      · simp only [hrenews, if_true]
      · simp only [hrenews, if_false]
    | _ => cases hrun

/-- The state of a busy session. -/
structure Attended (sessionTtl : ℤ) (j : ℕ) (s : BusySession M) : Prop where
  kept : s.server.Kept
  onDuty : s.server.timeoutCache.OnDuty
  held : ∀ session ctx, s.server.sessions[j]? = some session → session.ctx = some ctx →
    (s.lease session).Held (10 * 1000) sessionTtl ∧ s.now < s.last + (sessionTtl - 10 * 1000) ∧
      s.server.timeoutCache.Unpopped session.agent.getKey

theorem attended_init : Attended sessionTtl j ({} : BusySession M) where
  kept := SessionServer.kept_init
  onDuty := TimeoutCache.onDuty_init
  held _ _ hj := nomatch hj

theorem Attended.lt_deadline (h : s.Attended sessionTtl j)
    (hj : s.server.sessions[j]? = some session) (hctx : session.ctx = some ctx) :
    s.now < s.server.timeoutCache.deadline session.agent.getKey := by
  obtain ⟨hheld, hnow, -⟩ := h.held session ctx hj hctx
  exact hheld.lt_deadline hnow

theorem OneStep.eq_poll {s : SessionServer M} {a : SessionServer.Action} (h : OneStep s a)
    {time : ℤ} (hw : s.timeoutCache.watcher = .polling time) : a = .cache .poll := by
  rw [OneStep] at h
  rw [hw] at h
  exact isPoll_iff.mp h

theorem Attended.onDuty_step (h : s.Attended sessionTtl j) {a : SessionServer.Action}
    (ha : Busy sessionTtl j s a) {server : SessionServer M}
    (hst : (SessionServer.machine M sessionTtl).step s.server a = some server) :
    server.timeoutCache.OnDuty := by
  obtain ⟨hfresh, -, -, hone⟩ := ha
  obtain heq | ⟨b, hb, -, hpoll⟩ := SessionServer.timeoutCache_step hfresh hst
  · rw [heq]
    exact h.onDuty
  · exact h.onDuty.step (fun time hw => hpoll.mpr (hone.eq_poll hw)) hb

/-- The entry of a busy session is not due, so that it is not popped. -/
theorem Attended.unpopped_step (h : s.Attended sessionTtl j) {a : SessionServer.Action}
    (ha : Busy sessionTtl j s a) {server : SessionServer M}
    (hst : (SessionServer.machine M sessionTtl).step s.server a = some server)
    (hj : s.server.sessions[j]? = some session) (hctx : session.ctx = some ctx) :
    server.timeoutCache.Unpopped session.agent.getKey := by
  obtain ⟨-, -, hunpopped⟩ := h.held session ctx hj hctx
  obtain ⟨r, hentry, -⟩ := h.kept.entry session (List.mem_of_getElem? hj)
  obtain heq | ⟨b, hb, hput, -⟩ := SessionServer.timeoutCache_step ha.1 hst
  · rw [heq]
    exact hunpopped
  · exact hunpopped.step (hput _ _ hentry.1)
      (fun time hw _ holder hk => h.onDuty.head?_ne hw hk (h.lt_deadline hj hctx)) hb

/-- The clock stays behind the last sign of life. -/
theorem Attended.now_lt_step (h : s.Attended sessionTtl j) (httl : 10 * 1000 < sessionTtl)
    {a : SessionServer.Action} (ha : Busy sessionTtl j s a)
    (hst : (machine M sessionTtl j).step s a = some t)
    (hj : s.server.sessions[j]? = some session) (hctx : session.ctx = some ctx) :
    t.now < t.last + (sessionTtl - 10 * 1000) := by
  obtain ⟨-, hnow, -⟩ := h.held session ctx hj hctx
  obtain ⟨hserver, hlast⟩ := step_cases hst
  have hlt : j < s.server.sessions.length := (List.getElem?_eq_some_iff.mp hj).1
  rw [hlast]
  by_cases htick : ∃ ms, a = .cache (.tick ms)
  · obtain ⟨ms, rfl⟩ := htick
    have htime : t.now = s.now + ms := by
      rw [now, ← Option.some.inj hserver]
      rfl
    rw [htime, if_neg (by simp [isRun, hlt])]
    exact ha.2.2.1 hlt
  · push Not at htick
    have hsame : t.now = s.now := (SessionServer.frame_step hserver).1 htick
    rw [hsame]
    split
    next => omega
    next => exact hnow

/-- A step that makes session `j` grants it a lease. -/
theorem Attended.held_new (h : s.Attended sessionTtl j) (httl : 10 * 1000 < sessionTtl)
    {a : SessionServer.Action} (ha : Busy sessionTtl j s a)
    (hst : (machine M sessionTtl j).step s a = some t) (hnew : s.server.sessions.length ≤ j)
    (hj : t.server.sessions[j]? = some session) (hctx : session.ctx = some ctx) :
    (t.lease session).Held (10 * 1000) sessionTtl ∧ t.now < t.last + (sessionTtl - 10 * 1000) ∧
      t.server.timeoutCache.Unpopped session.agent.getKey := by
  obtain ⟨hserver, hlast⟩ := step_cases hst
  rw [if_pos (.inr hnew)] at hlast
  have hlt : j < t.server.sessions.length := (List.getElem?_eq_some_iff.mp hj).1
  have hcreates : SessionServer.Creates s.server a := by
    by_contra hne
    rw [(SessionServer.frame_step hserver).2.2 hne] at hlt
    omega
  cases a with
  | textFrame ctx' key message =>
    have hnow : t.now = s.now := (SessionServer.frame_step hserver).1 (by rintro _ ⟨⟩)
    have hserver := Option.some.inj hserver
    obtain ⟨hsessions, hdeadline, -⟩ :=
      h.kept.executeChannelMessage_of_none hcreates key message
    have hunpopped := h.kept.unpopped_executeChannelMessage sessionTtl hcreates ha.1 message
    rw [hserver] at hsessions hdeadline hunpopped
    obtain ⟨rfl, rfl⟩ := SessionServer.eq_newest hsessions hj hnew
    have hlease : t.lease (s.server.newest key (some ctx')) =
        Lease.grant (10 * 1000) sessionTtl s.now := by
      rw [lease, hlast]
      exact congrArg _ hdeadline
    rw [hlease, hnow, hlast]
    exact ⟨Lease.held_grant (by decide), by omega, hunpopped⟩
  | http key message =>
    have hsessions : t.server.sessions = s.server.sessions ++ [s.server.newest key none] := by
      rw [← Option.some.inj hserver]
      rfl
    obtain ⟨-, rfl⟩ := SessionServer.eq_newest hsessions hj hnew
    cases hctx
  | _ => exact hcreates.elim

/-- The step lemma. -/
theorem Attended.step (h : s.Attended sessionTtl j) (httl : 10 * 1000 < sessionTtl)
    {a : SessionServer.Action} (ha : Busy sessionTtl j s a)
    (hst : (machine M sessionTtl j).step s a = some t) : t.Attended sessionTtl j := by
  obtain ⟨hserver, -⟩ := step_cases hst
  refine ⟨h.kept.step ha.1 hserver, h.onDuty_step ha hserver, fun y ctx hy hctx => ?_⟩
  rcases Nat.lt_or_ge j s.server.sessions.length with hlt | hnew
  · have hj := List.getElem?_eq_getElem hlt
    obtain ⟨⟨y', hy', -, hctx'⟩, -⟩ := h.kept.spends_step ha.1 hserver hj
    rw [hy, Option.some.injEq] at hy'
    subst hy'
    rw [hctx'] at hctx
    obtain ⟨y', hy', hagent, -, hlease⟩ := lease_step h.kept ha hst hj hctx
    rw [hy, Option.some.injEq] at hy'
    subst hy'
    obtain ⟨hheld, -, -⟩ := h.held _ ctx hj hctx
    refine ⟨?_, h.now_lt_step httl ha hst hj hctx, ?_⟩
    · rw [hlease]
      split
      next => exact hheld.beat (by decide)
      next => exact hheld
    · rw [hagent]
      exact h.unpopped_step ha hserver hj hctx
  · exact h.held_new httl ha hst hnew hy hctx

/-- One message of the session. -/
def message (key : String) : List SessionServer.Action :=
  [.textFrame 0 key .other, .deliver 0, .mailbox 0 (.hasMore 0), .runMessage 0 0 true,
    .mailbox 0 (.finish 0 .returns)]

end BusySession

end Gwems
