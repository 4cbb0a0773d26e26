import Gwems.Library.Flight
import Gwems.Servers.Session
import Gwems.Util.TimeoutCacheArmed

/-!
# When a session expires

`runSocketMessage` renews the entry of its session in the `timeoutCache`, at most every ten
seconds, and nothing else does: a session gets one more `sessionTtl` for each message that runs
on it. This module bounds the life of a session by the messages it has still to run.

`Kept` is the invariant: every session has its entry, whose callback either has still to start or
has been started. It needs that a new session gets a key that is not in use (`Fresh`; "must be
unique!"). `Lives` is a budget for one session: its deadline, and one `sessionTtl` for each message
that is on its way to the session or waits in its mailbox, stay below a bound. A step that sends
nothing to the session keeps the bound (`Lives.step`), and a punctual clock does not pass the
deadline (`Lives.tick`), so that past the bound the session has expired (`Lives.started`).
-/

namespace Gwems

variable {M : Type*}

/-- The callback that `almost_private_EnsureSessionAgent` registers for a session. -/
def SessionAgent.callback (session : SessionAgent) : ExpiryCallback :=
  { agent := session.agent, ctx := session.ctx }

/-- The messages of a mailbox that have still to run: those in the queue, and the one that is
executing if `runSocketMessage` has not got to it. -/
def SessionAgent.waiting (session : SessionAgent) : ℕ :=
  session.socketMessageQ.q.length +
    if session.running.isNone then session.socketMessageQ.busyCount else 0

/-- A mailbox that moves on has no more messages to run than before. -/
theorem SessionAgent.waiting_mailbox {session : SessionAgent}
    (h : session.socketMessageQ.Exclusive) {a : RunnablesQueue.Action SocketMessage}
    (ha : SessionServer.mailboxAllows session a = true) {q : RunnablesQueue SocketMessage}
    (hst : (RunnablesQueue.machine _).step session.socketMessageQ a = some q) :
    SessionAgent.waiting { session with
      socketMessageQ := q, running := SessionServer.runningAfter session a } ≤
        session.waiting := by
  obtain ⟨r, rfl, -⟩ | ⟨i, rfl, hi, rfl⟩ | ⟨i, p, p', hi, rfl, hmove⟩ :=
    RunnablesQueue.step_cases hst
  · cases ha
  · -- the activation was between messages, so that no other message is executing
    have hbusy := h.busyCount_eq_zero hi
    have hset := fun p' => RunnablesQueue.countP_set hi RunnerPhase.busy p'
    unfold RunnablesQueue.busyCount at hbusy
    unfold waiting RunnablesQueue.hasMore
    split
    next r q hq =>
      have hexec := hset (.executing r)
      simp only [RunnerPhase.busy, Bool.toNat_true, Bool.toNat_false] at hexec
      simp only [SessionServer.runningAfter, RunnablesQueue.busyCount, hq, List.length_cons,
        Option.isNone_none, if_true]
      omega
    next hq =>
      have hfin := hset .finishing
      simp only [RunnerPhase.busy, Bool.toNat_false] at hfin
      simp only [SessionServer.runningAfter, RunnablesQueue.busyCount, hq, List.length_nil,
        Option.isNone_none, if_true]
      omega
  · have hset := RunnablesQueue.countP_set hi RunnerPhase.busy p'
    obtain ⟨rfl, rfl, rfl⟩ | ⟨r, o, rfl, rfl, rfl⟩ | ⟨rfl, rfl, rfl⟩ := hmove
    · have hsame := Nat.add_right_cancel (hset : _ + 0 = _ + 0)
      simp only [waiting, SessionServer.runningAfter, RunnablesQueue.busyCount, hsame, le_refl]
    · -- a message ends when its thread has returned
      have hreturned : session.running = some .returned := of_decide_eq_true ha
      simp [waiting, SessionServer.runningAfter, hreturned]
    · have hsame := Nat.add_right_cancel (hset : _ + 0 = _ + 0)
      simp only [waiting, SessionServer.runningAfter, RunnablesQueue.busyCount, hsame, le_refl]

namespace SessionServer

variable {s t : SessionServer M} {sessionTtl : ℤ} {session : SessionAgent} {j : ℕ}

/-! ### Every session has its entry -/

/-- A new session gets a key that is not in use. -/
def Fresh (s : SessionServer M) : Action → Prop
  | .textFrame _ key _ | .http key _ => s.timeoutCache.cache key = none
  | .closeFrame _ | .deliver _ | .mailbox _ _ | .runMessage _ _ _ | .advance _ | .cache _
  | .expire _ | .cleanup _ | .endTask _ => True

instance (s : SessionServer M) (a : Action) : Decidable (Fresh s a) :=
  match a with
  | .textFrame _ key _ | .http key _ =>
    inferInstanceAs (Decidable (s.timeoutCache.cache key = none))
  | .closeFrame _ | .deliver _ | .mailbox _ _ | .runMessage _ _ _ | .advance _ | .cache _
  | .expire _ | .cleanup _ | .endTask _ => isTrue trivial

/-- A pool task has started the callback. -/
def Started (s : SessionServer M) (callback : ExpiryCallback) : Prop :=
  ∃ e ∈ s.cleanups, e.callback = callback

instance (s : SessionServer M) (callback : ExpiryCallback) : Decidable (s.Started callback) :=
  inferInstanceAs (Decidable (∃ e ∈ s.cleanups, e.callback = callback))

/-- The entry of a session is in the cache, and its callback waits or has been started. -/
def HasEntry (s : SessionServer M) (session : SessionAgent) : Prop :=
  ∃ r, s.timeoutCache.Entry session.agent.getKey (some session.agent) session.callback r ∧
    (s.timeoutCache.Waits r session.callback ∨ s.Started session.callback)

/-- Sessions, entries and attributes of channels belong together. -/
structure Kept (s : SessionServer M) : Prop where
  owned : s.timeoutCache.Owned
  exclusive : ∀ session ∈ s.sessions, session.socketMessageQ.Exclusive
  number : ∀ j (session : SessionAgent), s.sessions[j]? = some session → session.agent.id = j
  entry : ∀ session ∈ s.sessions, s.HasEntry session
  attr : ∀ ctx key, s.attr ctx = some key →
    ∃ session ∈ s.sessions, session.agent.getKey = key ∧ session.ctx = some ctx
  arriving : ∀ m ∈ s.arriving, m.1 < s.sessions.length

theorem kept_init : Kept ({} : SessionServer M) where
  owned := TimeoutCache.owned_init
  exclusive := List.forall_mem_nil _
  number _ _ h := (Option.some_ne_none _ h.symm).elim
  entry := List.forall_mem_nil _
  attr _ _ h := (Option.some_ne_none _ h.symm).elim
  arriving := List.forall_mem_nil _

/-- A step that leaves sessions, entries and attributes alone. -/
theorem Kept.frame (h : s.Kept) (hcache : t.timeoutCache = s.timeoutCache)
    (hsessions : t.sessions = s.sessions)
    (hstarted : ∀ callback, s.Started callback → t.Started callback)
    (hattr : ∀ ctx key, t.attr ctx = some key → s.attr ctx = some key)
    (harriving : ∀ m ∈ t.arriving, m ∈ s.arriving ∨ m.1 < s.sessions.length) : t.Kept := by
  refine ⟨hcache ▸ h.owned, hsessions ▸ h.exclusive, hsessions ▸ h.number, ?_, ?_, ?_⟩ <;>
    rw [hsessions]
  · intro session hmem
    obtain ⟨r, hentry, hwaits⟩ := h.entry session hmem
    refine ⟨r, hcache ▸ hentry, ?_⟩
    rw [hcache]
    exact hwaits.imp_right (hstarted _)
  · exact fun ctx key hkey => h.attr ctx key (hattr ctx key hkey)
  · exact fun m hm => (harriving m hm).elim (h.arriving m) id

/-- A session keeps its agent and its context. -/
theorem Kept.setSession (h : s.Kept) (hj : s.sessions[j]? = some session)
    (session' : SessionAgent) (hagent : session'.agent = session.agent)
    (hctx : session'.ctx = session.ctx) (hq : session'.socketMessageQ.Exclusive) :
    (s.setSession j session').Kept := by
  have hmem : session ∈ s.sessions := List.mem_of_getElem? hj
  have hlt : j < s.sessions.length := (List.getElem?_eq_some_iff.mp hj).1
  refine ⟨h.owned, fun x hx => ?_, fun i x hx => ?_, fun x hx => ?_, fun ctx key hkey => ?_,
    fun m hm => ?_⟩
  · rcases List.mem_or_eq_of_mem_set hx with hx | rfl
    · exact h.exclusive x hx
    · exact hq
  · by_cases hij : i = j
    · subst hij
      rw [SessionServer.setSession, List.getElem?_set_self hlt, Option.some.injEq] at hx
      rw [← hx, hagent]
      exact h.number i session hj
    · rw [SessionServer.setSession, List.getElem?_set_ne (Ne.symm hij)] at hx
      exact h.number i x hx
  · rcases List.mem_or_eq_of_mem_set hx with hx | rfl
    · exact h.entry x hx
    · have hentry := h.entry session hmem
      rw [HasEntry, SessionAgent.callback] at hentry ⊢
      rw [hagent, hctx]
      exact hentry
  · obtain ⟨x, hx, hx'⟩ := h.attr ctx key hkey
    obtain ⟨i, hi⟩ := List.mem_iff_getElem?.mp hx
    by_cases hij : i = j
    · subst hij
      rw [hj, Option.some.injEq] at hi
      subst hi
      refine ⟨session', List.mem_of_getElem? (List.getElem?_set_self hlt), ?_⟩
      rwa [hagent, hctx]
    · refine ⟨x, List.mem_of_getElem? (i := i) ?_, hx'⟩
      rw [SessionServer.setSession, List.getElem?_set_ne (Ne.symm hij)]
      exact hi
  · rw [SessionServer.setSession, List.length_set]
    exact h.arriving m hm

/-- A move of the cache. The callback that a task starts becomes a cleanup. -/
theorem Kept.moveCache (h : s.Kept) {a : TimeoutCache.Action Agent ExpiryCallback}
    (hput : ∀ key value ttl notified, a ≠ .put key value ttl notified)
    (hremove : ∀ key, a ≠ .remove key)
    (hst : (TimeoutCache.machine _ _).step s.timeoutCache a = some t.timeoutCache)
    (hsessions : t.sessions = s.sessions) (hattr : t.attr = s.attr)
    (harriving : t.arriving = s.arriving)
    (hstarted : ∀ callback, s.Started callback → t.Started callback)
    (hstart : ∀ i task callback, a = .start i → s.timeoutCache.tasks[i]? = some task →
      TimeoutCache.next task.phase = some callback → t.Started callback) : t.Kept := by
  refine ⟨h.owned.step hst, hsessions ▸ h.exclusive, hsessions ▸ h.number, ?_, ?_, ?_⟩ <;>
    rw [hsessions]
  · intro session hmem
    obtain ⟨r, hentry, hwaits⟩ := h.entry session hmem
    have hkeeps : TimeoutCache.Keeps session.agent.getKey s.timeoutCache a := by
      refine ⟨?_, hremove⟩
      cases a with
      | put key value ttl notified => exact absurd rfl (hput key value ttl notified)
      | _ => trivial
    refine ⟨r, hentry.step h.owned hkeeps hst, ?_⟩
    rcases hwaits with hwaits | hdone
    · -- the callback goes on waiting, or this is its start
      rcases hwaits.step hentry h.owned hremove
        (fun key value ttl notified heq => absurd heq (hput key value ttl notified)) hst with
        hwaits | ⟨i, task, rfl, hi, hnext⟩
      · exact .inl hwaits
      · exact .inr (hstart i task _ rfl hi hnext)
    · exact .inr (hstarted _ hdone)
  · rw [hattr]
    exact h.attr
  · rw [harriving]
    exact h.arriving

theorem Kept.setTtl (h : s.Kept) (key : String) (ttl : ℤ) :
    Kept { s with timeoutCache := s.timeoutCache.setTtl key ttl } :=
  h.moveCache (a := .setTtl key ttl) nofun nofun rfl rfl rfl rfl (fun _ hs => hs) nofun

/-- The keys of sessions are in use. -/
theorem Kept.key_ne (h : s.Kept) {key : String} (hfresh : s.timeoutCache.cache key = none)
    (hmem : session ∈ s.sessions) : session.agent.getKey ≠ key := by
  rintro rfl
  obtain ⟨r, hentry, -⟩ := h.entry session hmem
  rw [hentry.1] at hfresh
  cases hfresh

/-- A new session has its entry, and the others keep theirs. -/
theorem Kept.newSession (h : s.Kept) {key : String} (hfresh : s.timeoutCache.cache key = none)
    (ctx : Option ℕ) (ttl : ℤ) : (s.newSession key ctx ttl).Kept := by
  let agent : Agent := { id := s.sessions.length, hash := key }
  let callback : ExpiryCallback := { agent := agent, ctx := ctx }
  have hst : (TimeoutCache.machine _ _).step s.timeoutCache (.put key (some agent) ttl [callback]) =
      some (s.newSession key ctx ttl).timeoutCache := rfl
  refine ⟨h.owned.step hst, fun x hx => ?_, fun i x hx => ?_, fun x hx => ?_, fun c k hk => ?_,
    fun m hm => ?_⟩
  · rcases List.mem_append.mp hx with hx | hx
    · exact h.exclusive x hx
    · rw [List.mem_singleton.mp hx]
      exact Nat.zero_le _
  · rcases Nat.lt_or_ge i s.sessions.length with hi | hi
    · rw [SessionServer.newSession, List.getElem?_append_left hi] at hx
      exact h.number i x hx
    · rw [SessionServer.newSession, List.getElem?_append_right hi] at hx
      rw [List.getElem?_singleton] at hx
      split at hx
      next hzero =>
        rw [← Option.some.inj hx]
        exact le_antisymm hi (Nat.sub_eq_zero_iff_le.mp hzero)
      next => cases hx
  · rcases List.mem_append.mp hx with hx | hx
    · -- the new key is none of theirs
      obtain ⟨r, hentry, hwaits⟩ := h.entry x hx
      have hkeeps : TimeoutCache.Keeps x.agent.getKey s.timeoutCache
          (.put key (some agent) ttl [callback]) :=
        ⟨Ne.symm (h.key_ne hfresh hx), by rintro _ ⟨⟩⟩
      refine ⟨r, hentry.step h.owned hkeeps hst, hwaits.imp_left fun hwaits => ?_⟩
      rcases hwaits.step hentry h.owned hkeeps.2 (by rintro _ _ _ _ ⟨⟩; exact hfresh) hst with
        hwaits | ⟨i, task, heq, -⟩
      · exact hwaits
      · cases heq
    · rw [List.mem_singleton.mp hx]
      refine ⟨s.timeoutCache.allocated, ⟨?_, ?_⟩, .inl (.inl ?_)⟩
      · rw [SessionServer.newSession, TimeoutCache.put_cache, TimeoutCache.put_ref_of_none hfresh]
        exact Function.update_self ..
      · rw [SessionServer.newSession, TimeoutCache.put_timedKeys,
          TimeoutCache.put_ref_of_none hfresh, Function.update_self]
        rfl
      · exact TimeoutCache.mem_timedQ_put h.owned hfresh _ _
  · obtain ⟨x, hx, hkx⟩ := h.attr c k hk
    exact ⟨x, List.mem_append_left _ hx, hkx⟩
  · rw [SessionServer.newSession, List.length_append]
    exact Nat.lt_of_lt_of_le (h.arriving m hm) (Nat.le_add_right _ _)

theorem Kept.ensureSessionAgent (h : s.Kept) {ctx : ℕ} {key : String}
    (hfresh : s.timeoutCache.cache key = none)
    (hs : s.ensureSessionAgent sessionTtl ctx key = some (t, j)) :
    t.Kept ∧ j < t.sessions.length := by
  rw [SessionServer.ensureSessionAgent] at hs
  split at hs
  next =>
    have hnew := h.newSession hfresh (some ctx) sessionTtl
    cases hs
    refine ⟨⟨hnew.owned, hnew.exclusive, hnew.number, hnew.entry, fun c k hk => ?_,
      hnew.arriving⟩, by simp [SessionServer.newSession]⟩
    by_cases hc : c = ctx
    · subst hc
      simp only [Function.update_self, Option.some.injEq] at hk
      subst hk
      exact ⟨_, List.mem_append_right _ (List.mem_singleton_self _), rfl, rfl⟩
    · simp only [Function.update_of_ne hc] at hk
      exact hnew.attr c k hk
  next k hattr =>
    obtain ⟨agent, hget, heq⟩ := Option.map_eq_some_iff.mp hs
    cases heq
    obtain ⟨x, hx, rfl, -⟩ := h.attr ctx k hattr
    obtain ⟨i, hi⟩ := List.mem_iff_getElem?.mp hx
    obtain ⟨r, hentry, -⟩ := h.entry x hx
    rw [TimeoutCache.get, hentry.1, Option.some.injEq] at hget
    rw [← hget, h.number i x hi]
    exact ⟨h, (List.getElem?_eq_some_iff.mp hi).1⟩

theorem Kept.executeChannelMessage (h : s.Kept) {ctx : ℕ} {key : String}
    (hfresh : s.timeoutCache.cache key = none) (message : SocketMessage) :
    (s.executeChannelMessage sessionTtl ctx key message).Kept := by
  rw [SessionServer.executeChannelMessage]
  split
  next s' j hs =>
    obtain ⟨hs', hlt⟩ := h.ensureSessionAgent hfresh hs
    refine hs'.frame rfl rfl (fun _ hstarted => hstarted) (fun _ _ hk => hk) fun m hm => ?_
    rcases List.mem_append.mp hm with hm | hm
    · exact .inl hm
    · rw [List.mem_singleton.mp hm]
      exact .inr hlt
  next => exact h

theorem Kept.closeFrame (h : s.Kept) (ctx : ℕ) : (s.closeFrame ctx).Kept := by
  rw [SessionServer.closeFrame]
  split
  · exact h.setTtl _ 0
  · exact h

theorem Kept.runSocketMessage (h : s.Kept) (hj : s.sessions[j]? = some session)
    (message : SocketMessage) (isOpen : Bool) :
    (s.runSocketMessage sessionTtl j session message isOpen).Kept := by
  have hq := h.exclusive session (List.mem_of_getElem? hj)
  rw [SessionServer.runSocketMessage]
  split
  · split
    · exact h.setSession hj _ rfl rfl hq
    · cases isOpen with
      | true => exact (h.setTtl session.agent.getKey sessionTtl).setSession hj _ rfl rfl hq
      | false => exact h.setSession hj _ rfl rfl hq
  · exact h.setSession hj _ rfl rfl hq

/-- A callback that has been started stays so. -/
theorem Started.set {callback : ExpiryCallback} (h : s.Started callback) {n : ℕ} {e : Cleanup}
    (hn : s.cleanups[n]? = some e) (e' : Cleanup) (heq : e'.callback = e.callback)
    (ht : t.cleanups = s.cleanups.set n e') : t.Started callback := by
  rw [Started] at h ⊢
  rw [ht]
  rw [exists_mem_iff_others hn] at h
  exact (exists_mem_set_iff_others hn).mpr (h.imp_left fun hcallback => heq.trans hcallback)

/-- The attribute of the closed channel is reset. -/
theorem Kept.completeCleanup (h : s.Kept) {n : ℕ} {cleanup : Cleanup}
    (hn : s.cleanups[n]? = some cleanup) : (s.completeCleanup n cleanup).Kept := by
  refine h.frame rfl rfl (fun _ hstarted => ?_) (fun c k hk => ?_) fun _ hm => .inl hm
  · exact hstarted.set hn { cleanup with completed := true } rfl rfl
  cases hctx : cleanup.callback.ctx with
  | none =>
    simp only [SessionServer.completeCleanup, hctx, Option.elim_none] at hk
    exact hk
  | some ctx =>
    simp only [SessionServer.completeCleanup, hctx, Option.elim_some] at hk
    by_cases hc : c = ctx
    · rw [hc, Function.update_self] at hk
      cases hk
    · rwa [Function.update_of_ne hc] at hk

theorem Kept.executeHttpMessage (h : s.Kept) {key : String}
    (hfresh : s.timeoutCache.cache key = none) (message : SocketMessage) :
    (s.executeHttpMessage key message).Kept := by
  refine (h.newSession hfresh none 1).frame rfl rfl (fun _ hstarted => hstarted) (fun _ _ hk => hk)
    fun m hm => ?_
  rcases List.mem_append.mp hm with hm | hm
  · exact .inl hm
  · rw [List.mem_singleton.mp hm]
    exact .inr (by simp [SessionServer.newSession])

/-- **Sessions keep their entries**: the step lemma. -/
theorem Kept.step (h : s.Kept) {a : Action} (ha : Fresh s a)
    (hst : (machine M sessionTtl).step s a = some t) : t.Kept := by
  cases step_cases hst with
  | textFrame ctx key message => exact h.executeChannelMessage ha message
  | http key message => exact h.executeHttpMessage ha message
  | closeFrame ctx => exact h.closeFrame ctx
  | @deliver n j message session hn hj =>
    have hq := (h.exclusive session (List.mem_of_getElem? hj)).step
      (a := .run message) (t := session.socketMessageQ.run message) rfl
    have hset := h.setSession hj { session with
      socketMessageQ := session.socketMessageQ.run message } rfl rfl hq
    exact hset.frame rfl rfl (fun _ hstarted => hstarted) (fun _ _ hk => hk)
      fun m hm => .inl (List.mem_of_mem_eraseIdx hm)
  | mailbox hj _ hq =>
    exact h.setSession hj _ rfl rfl ((h.exclusive _ (List.mem_of_getElem? hj)).step hq)
  | runMessage hj _ _ => exact h.runSocketMessage hj _ _
  | @advance j session p p' g hj _ _ =>
    have hset := h.setSession hj { session with running := some p' } rfl rfl
      (h.exclusive session (List.mem_of_getElem? hj))
    exact hset.frame rfl rfl (fun _ hstarted => hstarted) (fun _ _ hk => hk) fun m hm => .inl hm
  | cache hallows hcache =>
    obtain ⟨hput, -, hremove, hstart⟩ := ne_of_cacheAllows hallows
    exact h.moveCache hput hremove hcache rfl rfl rfl (fun _ hstarted => hstarted)
      fun i _ _ heq => absurd heq (hstart i)
  | @expire i task callback cache htask hcallback hcache =>
    refine h.moveCache (by rintro _ _ _ _ ⟨⟩) (by rintro _ ⟨⟩) hcache rfl rfl rfl ?_ ?_
    · rintro _ ⟨e, he, heq⟩
      exact ⟨e, List.mem_append_left _ he, heq⟩
    · -- the started callback is the new cleanup
      rintro _ task' callback' ⟨⟩ htask' hnext
      rw [htask, Option.some.injEq] at htask'
      rw [← htask', hcallback, Option.some.injEq] at hnext
      exact ⟨_, List.mem_append_right _ (List.mem_singleton_self _), hnext⟩
  | @cleanup n cleanup p' g hn _ _ =>
    refine h.frame rfl rfl (fun _ hstarted => ?_) (fun _ _ hk => hk) fun _ hm => .inl hm
    exact hstarted.set hn { cleanup with thread := p' } rfl rfl
  | complete hn _ _ => exact h.completeCleanup hn
  | endTask _ _ hcache =>
    exact h.moveCache (by rintro _ _ _ _ ⟨⟩) (by rintro _ ⟨⟩) hcache rfl rfl rfl
      (fun _ hstarted => hstarted) (by rintro _ _ _ ⟨⟩)

/-! ### What a session has left -/

/-- The messages on their way to a session or in its mailbox. -/
def pending (s : SessionServer M) (j : ℕ) : ℕ :=
  s.arriving.countP (fun m => m.1 = j) + s.sessions[j]?.elim 0 SessionAgent.waiting

/-- The messages an action sends to a session. -/
def sends (session : SessionAgent) : Action → ℕ
  | .textFrame ctx _ _ => if session.ctx = some ctx then 1 else 0
  | .http _ _ | .closeFrame _ | .deliver _ | .mailbox _ _ | .runMessage _ _ _ | .advance _
  | .cache _ | .expire _ | .cleanup _ | .endTask _ => 0

/-- The session with a number goes on, with its agent and its context. -/
def GoesOn (t : SessionServer M) (j : ℕ) (session : SessionAgent) : Prop :=
  ∃ session', t.sessions[j]? = some session' ∧ session'.agent = session.agent ∧
    session'.ctx = session.ctx

/-- What a step can do for a session that has `n` messages sent to it: nothing, or run a message
and give the session a new deadline for it, or make it due at once. -/
def Spends (s t : SessionServer M) (sessionTtl : ℤ) (j : ℕ) (key : String) (n : ℕ) : Prop :=
  (t.timeoutCache.deadline key = s.timeoutCache.deadline key ∧ t.pending j ≤ s.pending j + n) ∨
    (t.timeoutCache.deadline key = s.timeoutCache.now + sessionTtl ∧
      t.pending j + 1 ≤ s.pending j) ∨
    (t.timeoutCache.deadline key = s.timeoutCache.now ∧ t.pending j ≤ s.pending j)

/-- Sessions have different keys. -/
theorem Kept.key_inj (h : s.Kept) {i : ℕ} {x : SessionAgent} (hi : s.sessions[i]? = some x)
    (hj : s.sessions[j]? = some session) (hkey : x.agent.getKey = session.agent.getKey) :
    i = j := by
  obtain ⟨r, hentry, -⟩ := h.entry x (List.mem_of_getElem? hi)
  obtain ⟨r', hentry', -⟩ := h.entry session (List.mem_of_getElem? hj)
  have hcache := hentry.1
  rw [hkey, hentry'.1, Option.some.injEq, ObjectHolder.mk.injEq, Option.some.injEq] at hcache
  have hx := h.number i x hi
  have hsession := h.number j session hj
  rw [← hx, ← hcache.2, hsession]

theorem goesOn_setSession {i : ℕ} {x x' : SessionAgent} (hi : s.sessions[i]? = some x)
    (hagent : x'.agent = x.agent) (hctx : x'.ctx = x.ctx)
    (hj : s.sessions[j]? = some session) : (s.setSession i x').GoesOn j session := by
  have hlt : i < s.sessions.length := (List.getElem?_eq_some_iff.mp hi).1
  by_cases hij : i = j
  · subst hij
    rw [hi, Option.some.injEq] at hj
    subst hj
    exact ⟨x', List.getElem?_set_self hlt, hagent, hctx⟩
  · refine ⟨session, ?_, rfl, rfl⟩
    rw [SessionServer.setSession, List.getElem?_set_ne hij]
    exact hj

theorem goesOn_newSession (hj : s.sessions[j]? = some session) (key : String) (ctx : Option ℕ)
    (ttl : ℤ) : (s.newSession key ctx ttl).GoesOn j session := by
  refine ⟨session, ?_, rfl, rfl⟩
  rw [SessionServer.newSession, List.getElem?_append_left (List.getElem?_eq_some_iff.mp hj).1]
  exact hj

/-- What replacing a session does to the pending messages. -/
theorem pending_setSession {i : ℕ} {x : SessionAgent} (hi : s.sessions[i]? = some x)
    (x' : SessionAgent) (j : ℕ) :
    (s.setSession i x').pending j + (if i = j then x.waiting else 0) =
      s.pending j + if i = j then x'.waiting else 0 := by
  have hlt : i < s.sessions.length := (List.getElem?_eq_some_iff.mp hi).1
  unfold pending SessionServer.setSession
  by_cases hij : i = j
  · subst hij
    simp only [List.getElem?_set_self hlt, hi, Option.elim_some, if_true]
    omega
  · simp only [List.getElem?_set_ne hij, hij, if_false]

theorem pending_setSession_le {i : ℕ} {x x' : SessionAgent} (hi : s.sessions[i]? = some x)
    (hle : x'.waiting ≤ x.waiting) (j : ℕ) : (s.setSession i x').pending j ≤ s.pending j := by
  have hset := pending_setSession hi x' j
  split at hset <;> omega

theorem pending_newSession (hj : s.sessions[j]? = some session) (key : String) (ctx : Option ℕ)
    (ttl : ℤ) : (s.newSession key ctx ttl).pending j = s.pending j := by
  unfold pending SessionServer.newSession
  rw [List.getElem?_append_left (List.getElem?_eq_some_iff.mp hj).1]

/-- A cache step other than `setTtl` leaves the deadlines of sessions alone. -/
theorem Kept.deadline_eq (h : s.Kept) (hj : s.sessions[j]? = some session)
    {a : TimeoutCache.Action Agent ExpiryCallback} {cache : TimeoutCache Agent ExpiryCallback}
    (ha : TimeoutCache.Keeps session.agent.getKey s.timeoutCache a)
    (hne : ∀ key ttl, a ≠ .setTtl key ttl)
    (hst : (TimeoutCache.machine _ _).step s.timeoutCache a = some cache) :
    cache.deadline session.agent.getKey = s.timeoutCache.deadline session.agent.getKey := by
  obtain ⟨r, hentry, -⟩ := h.entry session (List.mem_of_getElem? hj)
  rcases TimeoutCache.deadline_step hentry h.owned ha hst with heq | ⟨ttl, rfl, -⟩
  · exact heq
  · exact absurd rfl (hne _ ttl)

theorem Kept.deadline_newSession (h : s.Kept) (hj : s.sessions[j]? = some session) {key : String}
    (hfresh : s.timeoutCache.cache key = none) (ctx : Option ℕ) (ttl : ℤ) :
    (s.newSession key ctx ttl).timeoutCache.deadline session.agent.getKey =
      s.timeoutCache.deadline session.agent.getKey := by
  have hne : key ≠ session.agent.getKey :=
    Ne.symm (h.key_ne hfresh (List.mem_of_getElem? hj))
  exact h.deadline_eq hj (a := .put _ _ _ _) ⟨hne, by rintro _ ⟨⟩⟩ (by rintro _ _ ⟨⟩) rfl

/-- Renewing an entry gives its key a new deadline and leaves the others alone. -/
theorem Kept.deadline_setTtl (h : s.Kept) (hj : s.sessions[j]? = some session) (key : String)
    (ttl : ℤ) : (s.timeoutCache.setTtl key ttl).deadline session.agent.getKey =
      if key = session.agent.getKey then s.timeoutCache.now + ttl
      else s.timeoutCache.deadline session.agent.getKey := by
  obtain ⟨r, hentry, -⟩ := h.entry session (List.mem_of_getElem? hj)
  have hst : (TimeoutCache.machine _ _).step s.timeoutCache (.setTtl key ttl) =
    some (s.timeoutCache.setTtl key ttl) := rfl
  have hkeeps : TimeoutCache.Keeps session.agent.getKey s.timeoutCache (.setTtl key ttl) :=
    ⟨trivial, by rintro _ ⟨⟩⟩
  have hentry' := hentry.step h.owned hkeeps hst
  rw [hentry'.deadline_eq, hentry.deadline_eq]
  split
  next hkey =>
    subst hkey
    rw [TimeoutCache.setTtl_of_some hentry.1]
    simp only [Function.update_self]
  next hkey => rw [TimeoutCache.setTtl_timedKeys_of_ne h.owned hentry.1 (Ne.symm hkey)]

/-- The session that `newSession` makes. -/
def newest (s : SessionServer M) (key : String) (ctx : Option ℕ) : SessionAgent where
  agent := { id := s.sessions.length, hash := key }
  ctx := ctx
  next10sec := s.timeoutCache.now + 10 * 1000

theorem sessions_newSession (key : String) (ctx : Option ℕ) (ttl : ℤ) :
    (s.newSession key ctx ttl).sessions = s.sessions ++ [s.newest key ctx] := rfl

/-- A session that was not there before a step that makes one is that one. -/
theorem eq_newest {x : SessionAgent} (hsessions : t.sessions = s.sessions ++ [x])
    (hj : t.sessions[j]? = some session) (hnew : s.sessions.length ≤ j) :
    j = s.sessions.length ∧ session = x := by
  have hlt := (List.getElem?_eq_some_iff.mp hj).1
  rw [hsessions, List.length_append, List.length_singleton] at hlt
  have hlen : j = s.sessions.length := by omega
  subst hlen
  rw [hsessions, List.getElem?_concat_length, Option.some.injEq] at hj
  exact ⟨rfl, hj.symm⟩

/-- The first frame on a channel makes a session, with a fresh deadline and one message. -/
theorem Kept.executeChannelMessage_of_none (h : s.Kept) {ctx : ℕ} (hattr : s.attr ctx = none)
    (key : String) (message : SocketMessage) :
    (s.executeChannelMessage sessionTtl ctx key message).sessions =
        s.sessions ++ [s.newest key (some ctx)] ∧
      (s.executeChannelMessage sessionTtl ctx key message).timeoutCache.deadline key =
        s.timeoutCache.now + sessionTtl ∧
      (s.executeChannelMessage sessionTtl ctx key message).pending s.sessions.length = 1 := by
  simp only [SessionServer.executeChannelMessage, SessionServer.ensureSessionAgent, hattr]
  refine ⟨rfl, TimeoutCache.deadline_put _ _, ?_⟩
  have hold : s.arriving.countP (fun m => decide (m.1 = s.sessions.length)) = 0 := by
    rw [List.countP_eq_zero]
    intro m hm
    have hlt := h.arriving m hm
    simp only [decide_eq_true_eq]
    omega
  have hnew : (s.newest key (some ctx)).waiting = 0 := rfl
  simp only [pending, sessions_newSession, List.getElem?_concat_length, Option.elim_some, hnew]
  simp only [SessionServer.newSession, List.countP_append, hold]
  simp

/-- A frame on the channel of another session is sent to that session. -/
theorem Kept.executeChannelMessage_spends (h : s.Kept) (hj : s.sessions[j]? = some session)
    {ctx : ℕ} {key : String} (hfresh : s.timeoutCache.cache key = none) (message : SocketMessage) :
    (s.executeChannelMessage sessionTtl ctx key message).GoesOn j session ∧
      Spends s (s.executeChannelMessage sessionTtl ctx key message) sessionTtl j
        session.agent.getKey (if session.ctx = some ctx then 1 else 0) := by
  have hlt : j < s.sessions.length := (List.getElem?_eq_some_iff.mp hj).1
  cases hattr : s.attr ctx with
  | none =>
    -- a new session, whose number is not `j`
    simp only [SessionServer.executeChannelMessage, SessionServer.ensureSessionAgent, hattr]
    refine ⟨goesOn_newSession hj key (some ctx) sessionTtl, .inl ⟨?_, ?_⟩⟩
    · exact h.deadline_newSession hj hfresh (some ctx) sessionTtl
    · have hpending := pending_newSession hj key (some ctx) sessionTtl
      have hne : ¬s.sessions.length = j := hlt.ne'
      simp only [pending, List.countP_append, List.countP_cons, List.countP_nil, hne] at hpending ⊢
      simp only [decide_false, Bool.false_eq_true, if_false]
      omega
  | some k =>
    obtain ⟨x, hx, rfl, hctx⟩ := h.attr ctx k hattr
    obtain ⟨i, hi⟩ := List.mem_iff_getElem?.mp hx
    obtain ⟨r, hentry, -⟩ := h.entry x hx
    have hget : s.timeoutCache.get x.agent.getKey = some x.agent := by
      rw [TimeoutCache.get, hentry.1]
    have hnumber := h.number i x hi
    simp only [SessionServer.executeChannelMessage, SessionServer.ensureSessionAgent, hattr, hget,
      Option.map_some]
    refine ⟨⟨session, hj, rfl, rfl⟩, .inl ⟨rfl, ?_⟩⟩
    simp only [pending, List.countP_append, List.countP_cons, List.countP_nil, hnumber]
    by_cases hij : i = j
    · subst hij
      rw [hj, Option.some.injEq] at hi
      subst hi
      simp only [hctx, if_true, decide_true]
      omega
    · simp only [hij, decide_false, Bool.false_eq_true, if_false]
      omega

/-- Running a message of a session may renew that session. -/
theorem Kept.runSocketMessage_spends (h : s.Kept) (hj : s.sessions[j]? = some session) {i : ℕ}
    {x : SessionAgent} (hi : s.sessions[i]? = some x) (hrunning : x.running = none)
    (hbusy : 0 < x.socketMessageQ.busyCount) (message : SocketMessage) (isOpen : Bool) :
    (s.runSocketMessage sessionTtl i x message isOpen).GoesOn j session ∧
      Spends s (s.runSocketMessage sessionTtl i x message isOpen) sessionTtl j
        session.agent.getKey 0 := by
  have hwaiting : x.waiting = x.socketMessageQ.q.length + x.socketMessageQ.busyCount := by
    simp [SessionAgent.waiting, hrunning]
  -- without a renewal the deadlines stay
  have hplain : ∀ x' : SessionAgent, x'.agent = x.agent → x'.ctx = x.ctx →
      x'.waiting ≤ x.waiting → (s.setSession i x').GoesOn j session ∧
        Spends s (s.setSession i x') sessionTtl j session.agent.getKey 0 :=
    fun x' hagent hctx hle => ⟨goesOn_setSession hi hagent hctx hj,
      .inl ⟨rfl, pending_setSession_le hi hle j⟩⟩
  have hrun : ∀ next10sec p, SessionAgent.waiting
      { x with next10sec := next10sec, running := some p } + 1 ≤ x.waiting := by
    intro next10sec p
    rw [hwaiting]
    simp only [SessionAgent.waiting, Option.isNone_some, Bool.false_eq_true, if_false]
    omega
  rw [SessionServer.runSocketMessage]
  split
  · split
    · exact hplain _ rfl rfl (Nat.le_of_succ_le (hrun _ _))
    · cases isOpen with
      | false => exact hplain _ rfl rfl (Nat.le_of_succ_le (hrun _ _))
      | true =>
        have hi' : ({ s with timeoutCache := s.timeoutCache.setTtl x.agent.getKey sessionTtl } :
          SessionServer M).sessions[i]? = some x := hi
        refine ⟨goesOn_setSession hi' rfl rfl hj, ?_⟩
        have hpending := pending_setSession hi' { x with
          next10sec := s.timeoutCache.now + 10 * 1000
          running := some (message.thread x.agent) } j
        have hdeadline := h.deadline_setTtl hj x.agent.getKey sessionTtl
        have hless := hrun (s.timeoutCache.now + 10 * 1000) (message.thread x.agent)
        by_cases hij : i = j
        · -- its own session: the message that runs pays
          subst hij
          rw [hj, Option.some.injEq] at hi
          subst hi
          rw [if_pos rfl] at hdeadline
          rw [if_pos rfl, if_pos rfl] at hpending
          refine .inr (.inl ⟨hdeadline, ?_⟩)
          have hsame : pending { s with
            timeoutCache := s.timeoutCache.setTtl session.agent.getKey sessionTtl } i =
              s.pending i := rfl
          rw [hsame] at hpending
          simp only [↓reduceIte]
          omega
        · -- another session has another key
          have hkey : x.agent.getKey ≠ session.agent.getKey :=
            fun hkey => hij (h.key_inj hi hj hkey)
          rw [if_neg hkey] at hdeadline
          rw [if_neg hij, if_neg hij] at hpending
          exact .inl ⟨hdeadline, hpending.le⟩
  · exact hplain _ rfl rfl (Nat.le_of_succ_le (hrun _ _))

/-- A step that changes neither sessions nor deadlines nor messages. -/
theorem goesOn_and_spends_of_eq (hj : s.sessions[j]? = some session) {key : String} {n : ℕ}
    (hdeadline : t.timeoutCache.deadline key = s.timeoutCache.deadline key)
    (hsessions : t.sessions = s.sessions) (harriving : t.arriving = s.arriving) :
    t.GoesOn j session ∧ Spends s t sessionTtl j key n := by
  refine ⟨⟨session, hsessions ▸ hj, rfl, rfl⟩, .inl ⟨hdeadline, ?_⟩⟩
  rw [pending, pending, hsessions, harriving]
  exact Nat.le_add_right _ _

/-- A request makes another session. -/
theorem Kept.executeHttpMessage_spends (h : s.Kept) (hj : s.sessions[j]? = some session)
    {key : String} (hfresh : s.timeoutCache.cache key = none) (message : SocketMessage) :
    (s.executeHttpMessage key message).GoesOn j session ∧
      Spends s (s.executeHttpMessage key message) sessionTtl j session.agent.getKey 0 := by
  refine ⟨goesOn_newSession hj key none 1, .inl ⟨h.deadline_newSession hj hfresh none 1, ?_⟩⟩
  have hpending := pending_newSession hj key none 1
  have hne : ¬s.sessions.length = j := (List.getElem?_eq_some_iff.mp hj).1.ne'
  simp only [pending, SessionServer.executeHttpMessage, List.countP_append, List.countP_cons,
    List.countP_nil, hne, decide_false, Bool.false_eq_true, if_false] at hpending ⊢
  omega

/-- Closing a channel makes its session due. -/
theorem Kept.closeFrame_spends (h : s.Kept) (hj : s.sessions[j]? = some session) (ctx : ℕ) :
    (s.closeFrame ctx).GoesOn j session ∧
      Spends s (s.closeFrame ctx) sessionTtl j session.agent.getKey 0 := by
  rw [SessionServer.closeFrame]
  split
  next k _ =>
    have hdeadline := h.deadline_setTtl hj k 0
    split at hdeadline
    next =>
      rw [add_zero] at hdeadline
      exact ⟨⟨session, hj, rfl, rfl⟩, .inr (.inr ⟨hdeadline, le_refl _⟩)⟩
    next => exact goesOn_and_spends_of_eq hj hdeadline rfl rfl
  next => exact goesOn_and_spends_of_eq hj rfl rfl rfl

/-- A message that is delivered was pending before and still is. -/
theorem deliver_spends (hj : s.sessions[j]? = some session) {n i : ℕ} {message : SocketMessage}
    {x : SessionAgent} (hn : s.arriving[n]? = some (i, message)) (hi : s.sessions[i]? = some x) :
    let t := { s.setSession i { x with
      socketMessageQ := x.socketMessageQ.run message } with arriving := s.arriving.eraseIdx n }
    t.GoesOn j session ∧ Spends s t sessionTtl j session.agent.getKey 0 := by
  intro t
  have hcount := Flight.countP_eraseIdx hn fun m => decide (m.1 = j)
  have hset := pending_setSession hi { x with socketMessageQ := x.socketMessageQ.run message } j
  refine ⟨goesOn_setSession hi rfl rfl hj, .inl ⟨rfl, ?_⟩⟩
  -- the message is in the mailbox now
  have hmore : SessionAgent.waiting { x with socketMessageQ := x.socketMessageQ.run message } =
      x.waiting + 1 := by
    have hlength : (x.socketMessageQ.run message).q.length = x.socketMessageQ.q.length + 1 := by
      simp [RunnablesQueue.run]
    simp only [SessionAgent.waiting, RunnablesQueue.busyCount_run, hlength]
    omega
  rw [hmore] at hset
  simp only [t, pending, SessionServer.setSession] at hset ⊢
  rw [List.countP_singleton] at hcount
  by_cases hij : i = j
  · subst hij
    simp only [decide_true, if_true] at hset hcount
    omega
  · simp only [hij, decide_false, Bool.false_eq_true, if_false] at hset hcount
    omega

/-- **What a step does to a session**: the session goes on, and a new deadline costs it a
message. -/
theorem Kept.spends_step (h : s.Kept) {a : Action} (ha : Fresh s a)
    (hst : (machine M sessionTtl).step s a = some t) (hj : s.sessions[j]? = some session) :
    t.GoesOn j session ∧
      Spends s t sessionTtl j session.agent.getKey (sends session a) := by
  cases step_cases hst with
  | textFrame ctx key message => exact h.executeChannelMessage_spends hj ha message
  | http key message => exact h.executeHttpMessage_spends hj ha message
  | closeFrame ctx => exact h.closeFrame_spends hj ctx
  | deliver hn hi => exact deliver_spends hj hn hi
  | mailbox hi hallows hq =>
    have hle := SessionAgent.waiting_mailbox (h.exclusive _ (List.mem_of_getElem? hi)) hallows hq
    exact ⟨goesOn_setSession hi rfl rfl hj, .inl ⟨rfl, pending_setSession_le hi hle j⟩⟩
  | @runMessage _ _ isOpen x message hi hrunner hrunning =>
    have hbusy : 0 < x.socketMessageQ.busyCount :=
      List.countP_pos_iff.mpr ⟨_, List.mem_of_getElem? hrunner, rfl⟩
    exact h.runSocketMessage_spends hj hi hrunning hbusy message isOpen
  | @advance _ x p p' g hi hp _ =>
    have hsame : SessionAgent.waiting { x with running := some p' } ≤ x.waiting := by
      simp [SessionAgent.waiting]
    have hi' : ({ s with global := g } : SessionServer M).sessions[_]? = some x := hi
    exact ⟨goesOn_setSession hi' rfl rfl hj, .inl ⟨rfl, pending_setSession_le hi' hsame j⟩⟩
  | @cache a cache hallows hcache =>
    obtain ⟨hput, hsetTtl, hremove, -⟩ := ne_of_cacheAllows hallows
    refine goesOn_and_spends_of_eq hj (h.deadline_eq hj ⟨?_, hremove⟩ hsetTtl hcache) rfl rfl
    cases a with
    | put key value ttl notified => exact absurd rfl (hput key value ttl notified)
    | _ => trivial
  | expire _ _ hcache =>
    have hdeadline := h.deadline_eq hj (a := .start _) ⟨trivial, by rintro _ ⟨⟩⟩
      (by rintro _ _ ⟨⟩) hcache
    exact goesOn_and_spends_of_eq hj hdeadline rfl rfl
  | cleanup => exact goesOn_and_spends_of_eq hj rfl rfl rfl
  | complete => exact goesOn_and_spends_of_eq hj rfl rfl rfl
  | endTask _ _ hcache =>
    have hdeadline := h.deadline_eq hj (a := .finish _ true) ⟨trivial, by rintro _ ⟨⟩⟩
      (by rintro _ _ ⟨⟩) hcache
    exact goesOn_and_spends_of_eq hj hdeadline rfl rfl

/-- An action that makes a session: a request, or a frame on a channel that has none. -/
def Creates (s : SessionServer M) : Action → Prop
  | .textFrame ctx _ _ => s.attr ctx = none
  | .http _ _ => True
  | .closeFrame _ | .deliver _ | .mailbox _ _ | .runMessage _ _ _ | .advance _ | .cache _
  | .expire _ | .cleanup _ | .endTask _ => False

/-- A frame on a channel that has a session makes none. -/
theorem executeChannelMessage_frame (ctx : ℕ) (key : String) (message : SocketMessage) :
    (s.executeChannelMessage sessionTtl ctx key message).timeoutCache.now = s.timeoutCache.now ∧
      (s.executeChannelMessage sessionTtl ctx key message).cleanups = s.cleanups ∧
      (s.attr ctx ≠ none →
        (s.executeChannelMessage sessionTtl ctx key message).sessions.length =
          s.sessions.length) := by
  rw [executeChannelMessage]
  split
  next s' i hs =>
    rw [ensureSessionAgent] at hs
    split at hs
    next hattr =>
      cases hs
      exact ⟨TimeoutCache.put_now, rfl, absurd hattr⟩
    next =>
      obtain ⟨agent, -, heq⟩ := Option.map_eq_some_iff.mp hs
      cases heq
      exact ⟨rfl, rfl, fun _ => rfl⟩
  next => exact ⟨rfl, rfl, fun _ => rfl⟩

theorem runSocketMessage_frame (x : SessionAgent) (message : SocketMessage) (isOpen : Bool) :
    (s.runSocketMessage sessionTtl j x message isOpen).timeoutCache.now = s.timeoutCache.now ∧
      (s.runSocketMessage sessionTtl j x message isOpen).cleanups = s.cleanups ∧
      (s.runSocketMessage sessionTtl j x message isOpen).sessions.length = s.sessions.length := by
  rw [runSocketMessage]
  split
  · split
    · exact ⟨rfl, rfl, List.length_set⟩
    · cases isOpen with
      | true => exact ⟨TimeoutCache.setTtl_now sessionTtl, rfl, List.length_set⟩
      | false => exact ⟨rfl, rfl, List.length_set⟩
  · exact ⟨rfl, rfl, List.length_set⟩

/-- Only a tick of the cache moves the clock, started callbacks stay started, and sessions are
made by `newSession` only. -/
theorem frame_step {a : Action} (hst : (machine M sessionTtl).step s a = some t) :
    ((∀ ms, a ≠ .cache (.tick ms)) → t.timeoutCache.now = s.timeoutCache.now) ∧
      (∀ callback, s.Started callback → t.Started callback) ∧
      (¬Creates s a → t.sessions.length = s.sessions.length) := by
  have hkeeps : ∀ {u : SessionServer M}, u.cleanups = s.cleanups →
      ∀ callback, s.Started callback → u.Started callback := by
    intro u hcleanups callback hstarted
    rw [Started]
    rw [hcleanups]
    exact hstarted
  cases step_cases hst with
  | textFrame ctx key message =>
    obtain ⟨hnow, hcleanups, hlength⟩ := executeChannelMessage_frame ctx key message
    exact ⟨fun _ => hnow, hkeeps hcleanups, hlength⟩
  | http key message => exact ⟨fun _ => TimeoutCache.put_now, hkeeps rfl, absurd trivial⟩
  | closeFrame ctx =>
    rw [closeFrame]
    split
    · exact ⟨fun _ => TimeoutCache.setTtl_now 0, hkeeps rfl, fun _ => rfl⟩
    · exact ⟨fun _ => rfl, hkeeps rfl, fun _ => rfl⟩
  | deliver => exact ⟨fun _ => rfl, hkeeps rfl, fun _ => List.length_set⟩
  | mailbox => exact ⟨fun _ => rfl, hkeeps rfl, fun _ => List.length_set⟩
  | @runMessage _ _ isOpen x message =>
    obtain ⟨hnow, hcleanups, hlength⟩ := runSocketMessage_frame x message isOpen
    exact ⟨fun _ => hnow, hkeeps hcleanups, fun _ => hlength⟩
  | advance => exact ⟨fun _ => rfl, hkeeps rfl, fun _ => List.length_set⟩
  | cache _ hcache =>
    refine ⟨fun hne => TimeoutCache.now_step (fun ms heq => hne ms ?_) hcache, hkeeps rfl,
      fun _ => rfl⟩
    rw [heq]
  | expire _ _ hcache =>
    refine ⟨fun _ => TimeoutCache.now_step (by rintro _ ⟨⟩) hcache, ?_, fun _ => rfl⟩
    rintro _ ⟨e, he, heq⟩
    exact ⟨e, List.mem_append_left _ he, heq⟩
  | @cleanup _ cleanup p' _ hn =>
    exact ⟨fun _ => rfl, fun _ hstarted => hstarted.set hn { cleanup with thread := p' } rfl rfl,
      fun _ => rfl⟩
  | @complete _ cleanup hn =>
    exact ⟨fun _ => rfl, fun _ hstarted => hstarted.set hn { cleanup with completed := true }
      rfl rfl, fun _ => rfl⟩
  | endTask _ _ hcache =>
    exact ⟨fun _ => TimeoutCache.now_step (by rintro _ ⟨⟩) hcache, hkeeps rfl, fun _ => rfl⟩

/-! ### The budget of a session -/

/-- A session has expired, or its deadline is ahead and stays below the bound even if each of its
messages, and `k` more, renews it. -/
def Lives (s : SessionServer M) (sessionTtl : ℤ) (j : ℕ) (session : SessionAgent) (k : ℕ)
    (bound : ℤ) : Prop :=
  s.GoesOn j session ∧
    (s.Started session.callback ∨
      s.timeoutCache.now ≤ s.timeoutCache.deadline session.agent.getKey ∧
        s.timeoutCache.deadline session.agent.getKey + ((s.pending j + k : ℕ) : ℤ) * sessionTtl ≤
          bound)

variable {k k' : ℕ} {bound bound' : ℤ}

theorem Lives.mono (h : s.Lives sessionTtl j session k bound) (hle : bound ≤ bound') :
    s.Lives sessionTtl j session k bound' :=
  ⟨h.1, h.2.imp_right fun hlife => ⟨hlife.1, hlife.2.trans hle⟩⟩

/-- A budget is about the agent and the context of a session. -/
theorem Lives.congr (h : s.Lives sessionTtl j session k bound) {x : SessionAgent}
    (hagent : x.agent = session.agent) (hctx : x.ctx = session.ctx) :
    s.Lives sessionTtl j x k bound := by
  rw [Lives, GoesOn, SessionAgent.callback] at h ⊢
  rw [hagent, hctx]
  exact h

/-- Past its bound a session has expired. -/
theorem Lives.started (h : s.Lives sessionTtl j session k bound) (httl : 0 ≤ sessionTtl)
    (hlt : bound < s.timeoutCache.now) : s.Started session.callback := by
  rcases h.2 with hstarted | ⟨hnow, hbound⟩
  · exact hstarted
  · have hmul : 0 ≤ ((s.pending j + k : ℕ) : ℤ) * sessionTtl :=
      mul_nonneg (Int.natCast_nonneg _) httl
    omega

/-- **Budgets are kept.** A step of the server that sends at most `k - k'` messages to the session
keeps its bound. -/
theorem Lives.step (h : s.Lives sessionTtl j session k bound) (hkept : s.Kept)
    (httl : 0 ≤ sessionTtl) {a : Action} (hfresh : Fresh s a) (htick : ∀ ms, a ≠ .cache (.tick ms))
    (hsends : sends session a + k' ≤ k) (hst : (machine M sessionTtl).step s a = some t) :
    t.Lives sessionTtl j session k' bound := by
  obtain ⟨⟨x, hj, hagent, hctx⟩, hlife⟩ := h
  obtain ⟨hnow, hstarted, -⟩ := frame_step hst
  obtain ⟨⟨x', hj', hagent', hctx'⟩, hspends⟩ := hkept.spends_step hfresh hst hj
  have hsame : sends x a = sends session a := by
    cases a <;> simp only [sends, hctx]
  rw [hagent, hsame] at hspends
  refine ⟨⟨x', hj', hagent'.trans hagent, hctx'.trans hctx⟩, ?_⟩
  rcases hlife with hlife | ⟨hahead, hbound⟩
  · exact .inl (hstarted _ hlife)
  · right
    rw [hnow htick]
    have hmul : ∀ {m n : ℕ}, m ≤ n → (m : ℤ) * sessionTtl ≤ (n : ℤ) * sessionTtl :=
      fun hle => mul_le_mul_of_nonneg_right (Int.ofNat_le.mpr hle) httl
    obtain ⟨hdeadline, hpending⟩ | ⟨hdeadline, hpending⟩ | ⟨hdeadline, hpending⟩ := hspends <;>
      rw [hdeadline]
    · have hle : t.pending j + k' ≤ s.pending j + k := by omega
      exact ⟨hahead, (Int.add_le_add_left (hmul hle) _).trans hbound⟩
    · -- the message that has run pays for the new deadline
      have hle : t.pending j + k' + 1 ≤ s.pending j + k := by omega
      have hpaid := hmul hle
      rw [Nat.cast_succ, add_mul, one_mul] at hpaid
      exact ⟨by omega, by omega⟩
    · have hle : t.pending j + k' ≤ s.pending j + k := by omega
      have hpaid := hmul hle
      exact ⟨le_refl _, by omega⟩

/-- A punctual clock does not pass the deadline of a session that has not expired. -/
theorem Lives.tick (h : s.Lives sessionTtl j session k bound) (hkept : s.Kept) {ms : ℕ}
    (hp : s.timeoutCache.Punctual ms) :
    Lives { s with timeoutCache := { s.timeoutCache with now := s.timeoutCache.now + ms } }
      sessionTtl j session k bound := by
  obtain ⟨⟨x, hj, hagent, hctx⟩, hlife⟩ := h
  refine ⟨⟨x, hj, hagent, hctx⟩, ?_⟩
  obtain ⟨r, hentry, hwaits | hstarted⟩ := hkept.entry x (List.mem_of_getElem? hj)
  · refine hlife.imp_right fun hlife => ⟨?_, hlife.2⟩
    have hle := hwaits.le_deadline hentry hp
    rw [hagent] at hle
    exact hle
  · left
    rw [SessionAgent.callback] at hstarted ⊢
    rw [hagent, hctx] at hstarted
    exact hstarted

/-- A tick leaves the sessions and their entries alone. -/
theorem Kept.tick (h : s.Kept) (ms : ℕ) :
    Kept { s with timeoutCache := { s.timeoutCache with now := s.timeoutCache.now + ms } } :=
  h.moveCache (a := .tick ms) nofun nofun rfl rfl rfl rfl (fun _ hstarted => hstarted) nofun

end SessionServer

end Gwems
