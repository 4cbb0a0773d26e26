import Gwems.Servers.SessionExpiry

/-!
# The keep-alive of a link

A server that has a parent installs a timer "to keep the 'dis pubsub alive": every twelve minutes
its callback renews itself and publishes `{"@":"Live"}` on a channel that nobody uses, so that a
`d.Pub` reaches the parent and `runSocketMessage` renews the session of the link. The class of the
message is `d.Live`, and no class is called `Live`: `Global.deserialize` throws, the stack trace is
printed, and nothing is sent. The texts that the constructors send (`{"@":"Live"}` again, which
the parent cannot read either, and a `d.Sub`) are the only ones on an idle link.

`PubSubLink.machine` puts the child's `timeoutCache` and the link next to a whole parent, which
may serve any other connections. One clock drives both servers, and it moves only while no timer
is overdue. `idle_link_expires`: three times the TTL after any moment at which the link has a
session, that session has expired, in every run.
-/

namespace Gwems

variable {M : Type*}

/-! ### Constants and messages -/

/-- `Util.twoMinutes`, in milliseconds. -/
def twoMinutes : ℤ := 120 * 1000

/-- `Global.SessionAgentTTL`, the default of `sessionTtl`. -/
def SessionAgentTTL : ℤ := twoMinutes

/-- The key of the keep-alive timer. -/
def keepAliveKey : String := "eTADIUdpXuaVjdijWhlE"

/-- The TTL of the keep-alive timer. -/
def keepAliveTtl : ℤ := 12 * 60 * 1000

/-- The JSON text of a message: the type id, which is the property `@`, and the property `c`. -/
structure Text where
  typeId : String
  c : Option String := none
deriving DecidableEq

/-- `{"@":"Live"}`, as `Global` and `WsClientImpl` write it. -/
def Text.live : Text := { typeId := "Live" }

/-- `new Sub(channel)`. -/
def Text.sub (channel : String) : Text := { typeId := "d.Sub", c := some channel }

/-- `new Pub(channel, message)`. -/
def Text.pub (channel : String) : Text := { typeId := "d.Pub", c := some channel }

/-- The classes of messages. -/
def messageClasses : List String :=
  ["d.Live", "d.P2C", "d.Pub", "d.Sub", "d.Unsub", "gwems.Ack", "gwems.Js", "gwems.MultiPublish",
    "gwems.Ping", "gwems.Publish", "gwems.Push2Client", "gwems.Subscribe", "gwems.Unsubscribe",
    "org.messageweb.testmessages.AgentReply", "org.messageweb.testmessages.EnsureAgent",
    "org.messageweb.testmessages.LogonMessage", "org.messageweb.testmessages.PingEcho"]

/-- `Global.deserialize(s)`: a type id that names no class is rejected. -/
def deserialize (text : Text) : Option Text :=
  if text.typeId ∈ messageClasses then some text else none

/-- The type id of the keep-alive names no class. -/
theorem deserialize_live : deserialize .live = none := by decide

/-- What `CtxWrapper.run` runs for a text; an exception is logged. -/
def Text.message (text : Text) : SocketMessage :=
  match deserialize text with
  | some { typeId := "d.Sub", c := some c } => .sub c
  | _ => .other

/-! ### The two servers -/

/-- The callbacks of the child's cache. -/
inductive Timer
  | keepAlive
deriving DecidableEq

/-- A child's timers, the texts on its link, oldest first, and the parent. -/
structure PubSubLink (M : Type*) where
  child : TimeoutCache Agent Timer
  sent : List Text
  parent : SessionServer M := {}

namespace PubSubLink

/-- The channel context of the link at the parent. -/
def linkCtx : ℕ := 0

/-- What the child's constructor leaves: the first text of `WsClientImpl`, the subscription of the
agent that stands behind the timer, and the timer. -/
def start : PubSubLink M where
  child := ({} : TimeoutCache Agent Timer).put keepAliveKey (some { id := 0, hash := dummyChannel })
    keepAliveTtl [.keepAlive]
  sent := [.live, .sub dummyChannel]

/-- What the callback of the timer publishes. -/
def keepAliveTexts : List Text :=
  ((deserialize .live).map fun _ => Text.pub dummyChannel).toList

/-- What can happen next: time passes, the child's cache moves, a pool task of the child runs the
keep-alive callback, the parent reads the next text, or the parent moves. -/
inductive Action
  | tick (ms : ℕ)
  | child (a : TimeoutCache.Action Agent Timer)
  | keepAlive (i : ℕ)
  | receive (key : String)
  | parent (a : SessionServer.Action)

/-- The moves of the child's watcher and tasks around the callback. -/
def childAllows : TimeoutCache.Action Agent Timer → Bool
  | .wake | .test | .poll | .copy _ | .close _ => true
  | .tick _ | .put _ _ _ _ | .setTtl _ _ | .remove _ | .start _ | .finish _ _ => false

/-- The moves of the parent that neither read from the link nor move the clock. -/
def parentAllows : SessionServer.Action → Bool
  | .textFrame ctx _ _ => ctx ≠ linkCtx
  | .cache (.tick _) => false
  | .http _ _ | .closeFrame _ | .deliver _ | .mailbox _ _ | .runMessage _ _ _ | .advance _
  | .cache _ | .expire _ | .cleanup _ | .endTask _ => true

/-- The two servers and the link between them, with timers that fire when they are due. -/
def machine (M : Type*) (sessionTtl : ℤ) : Machine (PubSubLink M) Action where
  step s
    | .tick ms =>
      if s.child.Punctual ms ∧ s.parent.timeoutCache.Punctual ms then
        ((TimeoutCache.machine _ _).step s.child (.tick ms)).bind fun child =>
          ((SessionServer.machine M sessionTtl).step s.parent (.cache (.tick ms))).map fun parent =>
            { s with child := child, parent := parent }
      else none
    | .child a =>
      if childAllows a then
        ((TimeoutCache.machine _ _).step s.child a).map fun child => { s with child := child }
      else none
    | .keepAlive i =>
      ((TimeoutCache.machine _ _).run s.child
        [.start i, .setTtl keepAliveKey keepAliveTtl, .finish i true]).map fun child =>
          { s with child := child, sent := s.sent ++ keepAliveTexts }
    | .receive key =>
      match s.sent with
      | text :: sent =>
        if SessionServer.Fresh s.parent (.textFrame linkCtx key text.message) then
          ((SessionServer.machine M sessionTtl).step s.parent
            (.textFrame linkCtx key text.message)).map fun parent =>
              { s with sent := sent, parent := parent }
        else none
      | [] => none
    | .parent a =>
      if parentAllows a ∧ SessionServer.Fresh s.parent a then
        ((SessionServer.machine M sessionTtl).step s.parent a).map fun parent =>
          { s with parent := parent }
      else none

/-- The time. -/
def now (s : PubSubLink M) : ℤ := s.parent.timeoutCache.now

variable {s t : PubSubLink M} {sessionTtl : ℤ} {session : SessionAgent} {j : ℕ}

theorem keepAliveTexts_eq : keepAliveTexts = [] := by
  rw [keepAliveTexts, deserialize_live]
  rfl

/-- What one step does to the parent and the link: the clock moves, the child moves by itself, the
parent reads a text, or the parent moves. -/
theorem step_cases {a : Action} (h : (machine M sessionTtl).step s a = some t) :
    (∃ ms : ℕ, s.parent.timeoutCache.Punctual ms ∧ t.sent = s.sent ∧
        t.parent = { s.parent with
          timeoutCache := { s.parent.timeoutCache with now := s.now + ms } }) ∨
      (t.sent = s.sent ∧ t.parent = s.parent) ∨
      (∃ key text, s.sent = text :: t.sent ∧
        SessionServer.Fresh s.parent (.textFrame linkCtx key text.message) ∧
        (SessionServer.machine M sessionTtl).step s.parent (.textFrame linkCtx key text.message) =
          some t.parent) ∨
      ∃ a, parentAllows a = true ∧ SessionServer.Fresh s.parent a ∧ t.sent = s.sent ∧
        (SessionServer.machine M sessionTtl).step s.parent a = some t.parent := by
  cases a with
  | tick ms =>
    simp only [machine] at h
    split at h
    next hp =>
      refine .inl ⟨ms, hp.2, ?_⟩
      cases h
      exact ⟨rfl, rfl⟩
    next => cases h
  | child a =>
    simp only [machine] at h
    split at h
    next =>
      obtain ⟨child, -, rfl⟩ := Option.map_eq_some_iff.mp h
      exact .inr (.inl ⟨rfl, rfl⟩)
    next => cases h
  | keepAlive i =>
    obtain ⟨child, -, rfl⟩ := Option.map_eq_some_iff.mp h
    refine .inr (.inl ⟨?_, rfl⟩)
    rw [keepAliveTexts_eq, List.append_nil]
  | receive key =>
    simp only [machine] at h
    split at h
    next text sent hsent =>
      split at h
      next hfresh =>
        obtain ⟨parent, hparent, rfl⟩ := Option.map_eq_some_iff.mp h
        exact .inr (.inr (.inl ⟨key, text, hsent, hfresh, hparent⟩))
      next => cases h
    next => cases h
  | parent a =>
    simp only [machine] at h
    split at h
    next hallows =>
      obtain ⟨parent, hparent, rfl⟩ := Option.map_eq_some_iff.mp h
      exact .inr (.inr (.inr ⟨a, hallows.1, hallows.2, rfl, hparent⟩))
    next => cases h

/-! ### The session of the link -/

/-- The parent is in order, and each session of the link expires within three TTLs unless more
texts come: it may have been renewed just now, and two texts may renew it again. -/
structure Idle (s : PubSubLink M) (sessionTtl : ℤ) : Prop where
  kept : s.parent.Kept
  few : s.sent.length ≤ 2
  lives : ∀ j (session : SessionAgent), s.parent.sessions[j]? = some session →
    session.ctx = some linkCtx →
      s.parent.Lives sessionTtl j session s.sent.length (s.now + 3 * sessionTtl)

theorem idle_start : (start : PubSubLink M).Idle sessionTtl :=
  ⟨SessionServer.kept_init, le_refl 2, nofun⟩

theorem Idle.kept_step (h : s.Idle sessionTtl) {a : Action}
    (hst : (machine M sessionTtl).step s a = some t) : t.parent.Kept := by
  obtain ⟨ms, -, -, hparent⟩ | ⟨-, hparent⟩ | ⟨key, text, -, hfresh, hparent⟩ |
    ⟨a, -, hfresh, -, hparent⟩ := step_cases hst
  · rw [hparent]
    exact h.kept.tick ms
  · rw [hparent]
    exact h.kept
  · exact h.kept.step hfresh hparent
  · exact h.kept.step hfresh hparent

/-- Time does not go back. -/
theorem now_le_of_step {a : Action} (hst : (machine M sessionTtl).step s a = some t) :
    s.now ≤ t.now := by
  obtain ⟨ms, -, -, hparent⟩ | ⟨-, hparent⟩ | ⟨key, text, -, -, hparent⟩ |
    ⟨a, hallows, -, -, hparent⟩ := step_cases hst
  · rw [now, now, hparent, now]
    exact Int.le_add_of_nonneg_right (Int.natCast_nonneg ms)
  · rw [now, now, hparent]
  · exact ((SessionServer.frame_step hparent).1 nofun).ge
  · refine ((SessionServer.frame_step hparent).1 ?_).ge
    rintro ms rfl
    cases hallows

/-- No step extends the budget of a session of the link. -/
theorem Idle.lives_step (h : s.Idle sessionTtl) (httl : 0 ≤ sessionTtl) {bound : ℤ}
    (hctx : session.ctx = some linkCtx)
    (hlives : s.parent.Lives sessionTtl j session s.sent.length bound) {a : Action}
    (hst : (machine M sessionTtl).step s a = some t) :
    t.parent.Lives sessionTtl j session t.sent.length bound := by
  obtain ⟨ms, hp, hsent, hparent⟩ | ⟨hsent, hparent⟩ | ⟨key, text, hsent, hfresh, hparent⟩ |
    ⟨a, hallows, hfresh, hsent, hparent⟩ := step_cases hst
  · rw [hparent, hsent]
    exact hlives.tick h.kept hp
  · rw [hparent, hsent]
    exact hlives
  · refine hlives.step h.kept httl hfresh nofun ?_ hparent
    -- the text that is read was counted before
    rw [hsent, List.length_cons, SessionServer.sends, if_pos hctx, add_comm]
  · refine hlives.step h.kept httl hfresh ?_ ?_ hparent
    · rintro ms rfl
      cases hallows
    · rw [hsent]
      have hnone : SessionServer.sends session a = 0 := by
        cases a with
        | textFrame ctx key message =>
          have hne : ctx ≠ linkCtx := of_decide_eq_true hallows
          refine if_neg fun heq => hne ?_
          rw [hctx, Option.some.injEq] at heq
          exact heq.symm
        | _ => rfl
      rw [hnone, Nat.zero_add]

theorem Idle.goesOn_step (h : s.Idle sessionTtl) {a : Action}
    (hst : (machine M sessionTtl).step s a = some t) (hj : s.parent.sessions[j]? = some session) :
    t.parent.GoesOn j session := by
  obtain ⟨ms, -, -, hparent⟩ | ⟨-, hparent⟩ | ⟨key, text, -, hfresh, hparent⟩ |
    ⟨a, -, hfresh, -, hparent⟩ := step_cases hst
  · rw [hparent]
    exact ⟨session, hj, rfl, rfl⟩
  · rw [hparent]
    exact ⟨session, hj, rfl, rfl⟩
  · exact (h.kept.spends_step hfresh hparent hj).1
  · exact (h.kept.spends_step hfresh hparent hj).1

/-- A session that was there before the step still has a budget of three TTLs. -/
theorem Idle.lives_of_lt (h : s.Idle sessionTtl) (httl : 0 ≤ sessionTtl) {a : Action}
    (hst : (machine M sessionTtl).step s a = some t) (hj : t.parent.sessions[j]? = some session)
    (hctx : session.ctx = some linkCtx) (hlt : j < s.parent.sessions.length) :
    t.parent.Lives sessionTtl j session t.sent.length (t.now + 3 * sessionTtl) := by
  have hx : s.parent.sessions[j]? = some s.parent.sessions[j] := List.getElem?_eq_getElem hlt
  obtain ⟨x', hx', hagent, hctx'⟩ := h.goesOn_step hst hx
  rw [hj, Option.some.injEq] at hx'
  subst hx'
  have hlink : s.parent.sessions[j].ctx = some linkCtx := hctx' ▸ hctx
  have hlives := h.lives_step httl hlink (h.lives j _ hx hlink) hst
  have hle : s.now + 3 * sessionTtl ≤ t.now + 3 * sessionTtl :=
    Int.add_le_add_right (now_le_of_step hst) _
  exact (hlives.mono hle).congr hagent hctx'

/-- The text that opens a session of the link gives it a fresh deadline, and at most one more text
is left. -/
theorem Idle.lives_receive (h : s.Idle sessionTtl) (httl : 0 ≤ sessionTtl) {key : String}
    {text : Text} (hsent : s.sent = text :: t.sent) (hattr : s.parent.attr linkCtx = none)
    (hparent : (SessionServer.machine M sessionTtl).step s.parent
      (.textFrame linkCtx key text.message) = some t.parent)
    (hj : t.parent.sessions[j]? = some session) (hnew : ¬j < s.parent.sessions.length) :
    t.parent.Lives sessionTtl j session t.sent.length (s.now + 3 * sessionTtl) := by
  have hnow : t.parent.timeoutCache.now = s.now := (SessionServer.frame_step hparent).1 nofun
  obtain ⟨hsessions, hdeadline, hpending⟩ : t.parent.sessions =
      s.parent.sessions ++ [s.parent.newest key (some linkCtx)] ∧
      t.parent.timeoutCache.deadline key = s.now + sessionTtl ∧
      t.parent.pending s.parent.sessions.length = 1 := by
    rw [← Option.some.inj hparent]
    exact h.kept.executeChannelMessage_of_none hattr key text.message
  obtain ⟨rfl, rfl⟩ := SessionServer.eq_newest hsessions hj (not_lt.mp hnew)
  refine ⟨⟨_, hj, rfl, rfl⟩, .inr ?_⟩
  have hfew := h.few
  rw [hsent, List.length_cons] at hfew
  -- the message of this text, and at most one text that is left
  have hmul : ((1 + t.sent.length : ℕ) : ℤ) * sessionTtl ≤ 2 * sessionTtl :=
    mul_le_mul_of_nonneg_right (by omega) httl
  have hkey : (s.parent.newest key (some linkCtx)).agent.getKey = key := rfl
  rw [hnow, hkey, hdeadline, hpending]
  exact ⟨by omega, by omega⟩

/-- The step lemma. -/
theorem Idle.step (h : s.Idle sessionTtl) (httl : 0 ≤ sessionTtl) {a : Action}
    (hst : (machine M sessionTtl).step s a = some t) : t.Idle sessionTtl := by
  refine ⟨h.kept_step hst, ?_, fun j session hj hctx => ?_⟩
  · have hfew := h.few
    obtain ⟨ms, -, hsent, -⟩ | ⟨hsent, -⟩ | ⟨key, text, hsent, -, -⟩ | ⟨a, -, -, hsent, -⟩ :=
      step_cases hst
    · rwa [hsent]
    · rwa [hsent]
    · rw [hsent, List.length_cons] at hfew
      omega
    · rwa [hsent]
  · by_cases hlt : j < s.parent.sessions.length
    · exact h.lives_of_lt httl hst hj hctx hlt
    · -- the step has made the session
      have hlt' := (List.getElem?_eq_some_iff.mp hj).1
      obtain ⟨ms, -, -, hparent⟩ | ⟨-, hparent⟩ | ⟨key, text, hsent, hfresh, hparent⟩ |
        ⟨a, hallows, hfresh, -, hparent⟩ := step_cases hst
      · rw [hparent] at hlt'
        exact absurd hlt' hlt
      · rw [hparent] at hlt'
        exact absurd hlt' hlt
      · have hattr : s.parent.attr linkCtx = none := by
          by_contra hne
          rw [(SessionServer.frame_step hparent).2.2 hne] at hlt'
          exact hlt hlt'
        exact (h.lives_receive httl hsent hattr hparent hj hlt).mono
          (Int.add_le_add_right (now_le_of_step hst) _)
      · -- the other sessions of the parent are not on the link
        refine absurd hctx ?_
        have hcreates : SessionServer.Creates s.parent a := by
          by_contra hne
          rw [(SessionServer.frame_step hparent).2.2 hne] at hlt'
          exact hlt hlt'
        cases a with
        | textFrame ctx key message =>
          have hne : ctx ≠ linkCtx := of_decide_eq_true hallows
          have hsessions : t.parent.sessions =
              s.parent.sessions ++ [s.parent.newest key (some ctx)] := by
            rw [← Option.some.inj hparent]
            exact (h.kept.executeChannelMessage_of_none hcreates key message).1
          obtain ⟨-, rfl⟩ := SessionServer.eq_newest hsessions hj (not_lt.mp hlt)
          exact fun heq => hne (Option.some.inj heq)
        | http key message =>
          have hsessions : t.parent.sessions =
              s.parent.sessions ++ [s.parent.newest key none] := by
            rw [← Option.some.inj hparent]
            rfl
          obtain ⟨-, rfl⟩ := SessionServer.eq_newest hsessions hj (not_lt.mp hlt)
          exact nofun
        | _ => exact hcreates.elim

/-! ### Expiry -/

/-- **An idle link expires.** In every run: from any moment at which the parent has a session for
the link, that session's expiry callback has been started by the time the clock has moved on by
more than three TTLs, whatever the texts on the link, the child and the parent's other connections
do. -/
theorem idle_link_expires (h : (machine M SessionAgentTTL).Reaches start s)
    (hj : s.parent.sessions[j]? = some session) (hctx : session.ctx = some linkCtx)
    (hst : (machine M SessionAgentTTL).Reaches s t) (hnow : s.now + 3 * SessionAgentTTL < t.now) :
    t.parent.Started session.callback := by
  have httl : 0 ≤ SessionAgentTTL := by decide
  have hs : s.Idle SessionAgentTTL :=
    h.invariant (I := fun s => s.Idle SessionAgentTTL)
      (fun hidle hstep => hidle.step httl hstep) idle_start
  have ht : t.Idle SessionAgentTTL ∧ t.parent.Lives SessionAgentTTL j session t.sent.length
      (s.now + 3 * SessionAgentTTL) :=
    hst.invariant (I := fun u => u.Idle SessionAgentTTL ∧ u.parent.Lives SessionAgentTTL j session
        u.sent.length (s.now + 3 * SessionAgentTTL))
        (fun hu hstep => ⟨hu.1.step httl hstep, hu.1.lives_step httl hctx hu.2 hstep⟩)
      ⟨hs, hs.lives j session hj hctx⟩
  exact ht.2.started httl hnow

/-- The start of a run of an idle link: both texts arrive and run at once. -/
def idleRun : List Action :=
  [.receive "key", .parent (.deliver 0), .parent (.mailbox 0 (.begin 0)),
    .parent (.mailbox 0 (.hasMore 0)), .parent (.runMessage 0 0 true),
    .parent (.mailbox 0 (.finish 0 .returns)), .receive "other", .parent (.deliver 0),
    .parent (.mailbox 0 (.hasMore 0)), .parent (.runMessage 0 0 true), .parent (.advance 0),
    .parent (.advance 0), .parent (.advance 0), .parent (.mailbox 0 (.finish 0 .returns))]

/-- The rest of it: two minutes later the entry of the session is due, and its callback runs. -/
def expiryRun : List Action :=
  [.tick 120000, .parent (.cache .wake), .parent (.cache .test), .parent (.cache .poll),
    .parent (.cache (.copy 0)), .parent (.expire 0), .parent (.cleanup 0), .parent (.cleanup 0),
    .parent (.cleanup 0), .parent (.cleanup 0), .parent (.cleanup 0), .parent (.cleanup 0),
    .parent (.cleanup 0), .parent (.cleanup 0)]

/-- The parent has a session for the link at time 0, and six minutes and a millisecond later it
has expired. -/
theorem idle_link_expires_six_minutes :
    ∃ s t : PubSubLink Unit, s.now + 3 * SessionAgentTTL < t.now ∧
      ∃ session, s.parent.sessions[0]? = some session ∧ session.ctx = some linkCtx ∧
        t.parent.Started session.callback := by
  obtain ⟨s, hs, hsession, hrun⟩ := Machine.Reaches.exists_of_run
    (m := machine Unit SessionAgentTTL) (s := start)
    (P := fun s => s.parent.sessions[0]?.any (fun session => session.ctx = some linkCtx) = true ∧
      ((machine Unit SessionAgentTTL).run s (expiryRun ++ [.tick 240001])).any
        (fun t => s.now + 3 * SessionAgentTTL < t.now) = true) idleRun (by decide)
  obtain ⟨session, hj, hctx⟩ := (Option.any_eq_true _ _).mp hsession
  obtain ⟨t, hst, hnow⟩ := Machine.Reaches.exists_of_run
    (P := fun t : PubSubLink Unit => s.now + 3 * SessionAgentTTL < t.now) _ hrun
  have hctx := of_decide_eq_true hctx
  exact ⟨s, t, hnow, session, hj, hctx, idle_link_expires hs hj hctx hst hnow⟩

/-- The keep-alive does not keep an idle link alive: two minutes after the session of the link was
made, it has expired and has lost its subscriptions. -/
theorem keepAlive_fails :
    ∃ s : PubSubLink Unit, (machine Unit SessionAgentTTL).Reaches start s ∧ s.now = 120000 ∧
      ∃ session ∈ s.parent.sessions, session.ctx = some linkCtx ∧
        (∃ e ∈ s.parent.cleanups, e.callback = session.callback ∧ e.completed = true) ∧
          dummyChannel ∉ s.parent.global.channels session.agent :=
  Machine.Reaches.exists_of_run (idleRun ++ expiryRun) (by decide)

end PubSubLink

end Gwems
