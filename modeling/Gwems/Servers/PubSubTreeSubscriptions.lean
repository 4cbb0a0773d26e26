import Gwems.Servers.PubSubTree

/-!
# Subscriptions in the tree of servers

A message finds its way down the tree by the subscriptions of the links: a parent sends a channel
to a child exactly if it has the link agent of the child among its subscribers. What has to hold is
one implication: if a server has a subscriber for a channel, its parent will have its link there,
once the commands in flight have run (`Synced`). The converse can fail, since link agents subscribe
to their own keys, and does no harm.

The tables of the servers stay in order on the way (`Sound`): every subscriber of a server lives
there, and no other subscriber there has its key. What a leaf's table holds is what the calls on
that leaf say (`Recorded`, `subscribedAfter`).

`Network.Consistent` collects the three, and `consistent_of_runs` is the run lemma.
-/

namespace Gwems

variable {M : Type*} {N : Type*}

/-! ### One server -/

/-- What a call makes of a subscription of an agent. -/
def SubscriptionCall.effect (a : Agent) (c : String) (subscribed : Bool) : SubscriptionCall → Bool
  | .subscribe agent channel => subscribed || (agent = a && channel = c && channel.length ≠ 0)
  | .unsubscribe agent channel => subscribed && !(agent = a && channel = c)
  | .unsubscribeAgent agent => subscribed && agent ≠ a

namespace Global

variable {g : Global M} {a : Agent} {c d : String} {E : Set String}

@[simp] theorem unsubcribeIfEmpty_isPubSub : (g.unsubcribeIfEmpty c).isPubSub = g.isPubSub := by
  rw [unsubcribeIfEmpty]
  split <;> rfl

@[simp] theorem foldl_unsubcribeIfEmpty_isPubSub (l : List String) (g : Global M) :
    (l.foldl unsubcribeIfEmpty g).isPubSub = g.isPubSub := by
  induction l generalizing g with
  | nil => rfl
  | cons c l ih => rw [List.foldl_cons, ih, unsubcribeIfEmpty_isPubSub]

theorem perform_isPubSub (call : SubscriptionCall) :
    (g.perform call).isPubSub = g.isPubSub := by
  cases call with
  | subscribe b c =>
    simp only [perform, subscribe]
    split
    · rfl
    · split <;> rfl
  | unsubscribe b c => exact unsubcribeIfEmpty_isPubSub
  | unsubscribeAgent b => exact foldl_unsubcribeIfEmpty_isPubSub _ _

/-- Whether there is a link. -/
theorem enqueue_isSome (cmd : Command M) :
    (g.enqueue cmd).thePubSub.isSome = g.thePubSub.isSome := by
  cases h : g.thePubSub <;> simp [enqueue, h]

theorem unsubcribeIfEmpty_isSome :
    (g.unsubcribeIfEmpty c).thePubSub.isSome = g.thePubSub.isSome := by
  rw [unsubcribeIfEmpty]
  split
  · exact enqueue_isSome _
  · rfl

theorem foldl_unsubcribeIfEmpty_isSome (l : List String) (g : Global M) :
    (l.foldl unsubcribeIfEmpty g).thePubSub.isSome = g.thePubSub.isSome := by
  induction l generalizing g with
  | nil => rfl
  | cons c l ih => rw [List.foldl_cons, ih, unsubcribeIfEmpty_isSome]

/-- No call makes or loses the link. -/
theorem perform_isSome (call : SubscriptionCall) :
    (g.perform call).thePubSub.isSome = g.thePubSub.isSome := by
  cases call with
  | subscribe b c =>
    simp only [perform, subscribe]
    split
    · rfl
    · split
      · exact enqueue_isSome _
      · rfl
  | unsubscribe b c => exact unsubcribeIfEmpty_isSome
  | unsubscribeAgent b => exact foldl_unsubcribeIfEmpty_isSome _ _

/-- Every channel with a subscriber is among those the link gets messages on, once the parent has
run the commands that are not in flight yet. -/
def Covers (g : Global M) (E : Set String) : Prop :=
  ∀ cmds ∈ g.thePubSub, ∀ c, g.session2channel.Occupied c → c ∈ Command.afterAll E cmds

/-- The subscribers may become fewer. -/
theorem Covers.mono (h : g.Covers E) {g' : Global M} (hlink : g'.thePubSub = g.thePubSub)
    (hoccupied : ∀ c, g'.session2channel.Occupied c → g.session2channel.Occupied c) :
    g'.Covers E := by
  intro cmds hcmds c hc
  rw [hlink] at hcmds
  exact h cmds hcmds c (hoccupied c hc)

theorem mem_thePubSub_enqueue {cmd : Command M} {cmds : List (Command M)}
    (h : cmds ∈ (g.enqueue cmd).thePubSub) : ∃ cmds' ∈ g.thePubSub, cmds = cmds' ++ [cmd] := by
  obtain ⟨cmds', hcmds', rfl⟩ := Option.map_eq_some_iff.mp h
  exact ⟨cmds', hcmds', rfl⟩

/-- The `Unsub` is sent for a channel without a subscriber. -/
theorem Covers.unsubcribeIfEmpty (h : g.Covers E) (c : String) :
    (g.unsubcribeIfEmpty c).Covers E := by
  rw [Global.unsubcribeIfEmpty]
  split
  next hempty =>
    intro cmds hcmds d hd
    obtain ⟨cmds', hcmds', rfl⟩ := mem_thePubSub_enqueue hcmds
    have hmem := h cmds' hcmds' d hd
    have hne : d ≠ c := by
      rintro rfl
      exact SessionMap.not_occupied_iff.mpr hempty hd
    rw [Command.afterAll_concat]
    exact ⟨hmem, hne⟩
  next => exact h

theorem Covers.foldl_unsubcribeIfEmpty (h : g.Covers E) (l : List String) :
    (l.foldl Global.unsubcribeIfEmpty g).Covers E := by
  induction l generalizing g with
  | nil => exact h
  | cons c l ih => exact ih (h.unsubcribeIfEmpty c)

/-- The first subscriber of a channel sends the `Sub`. -/
theorem Covers.subscribe (h : g.Covers E) (a : Agent) (c : String) :
    (g.subscribe a c).Covers E := by
  by_cases hc : c.length = 0
  · rwa [subscribe_of_length_eq_zero hc]
  · intro cmds hcmds d hd
    rw [subscribe_session2channel hc, SessionMap.occupied_add] at hd
    simp only [Global.subscribe, hc, if_false] at hcmds
    split at hcmds
    next hempty =>
      obtain ⟨cmds', hcmds', rfl⟩ := mem_thePubSub_enqueue hcmds
      rw [Command.afterAll_concat]
      simp only [Command.onChannels, hc, if_false]
      rcases hd with hd | rfl
      · exact .inr (h cmds' hcmds' d hd)
      · exact .inl rfl
    next hempty =>
      have hoccupied : g.session2channel.Occupied c := by
        by_contra hnone
        exact hempty (SessionMap.not_occupied_iff.mp hnone)
      rcases hd with hd | rfl
      · exact h cmds hcmds d hd
      · exact h cmds hcmds d hoccupied

/-- **A call keeps the parent informed.** -/
theorem Covers.perform (h : g.Covers E) (call : SubscriptionCall) : (g.perform call).Covers E := by
  cases call with
  | subscribe a c => exact h.subscribe a c
  | unsubscribe a c =>
    have hremoved : Covers { g with
        unsubscriptionsRecorded := g.unsubscriptionsRecorded + 1
        session2channel := (g.session2channel.remove a c).1 } E :=
      h.mono rfl fun d hd => hd.of_remove
    exact hremoved.unsubcribeIfEmpty c
  | unsubscribeAgent a =>
    have hremoved : Covers { g with
        unsubscriptionsRecorded := g.unsubscriptionsRecorded + 1
        session2channel := (g.session2channel.removeItem a).1 } E :=
      h.mono rfl fun d hd => hd.of_removeItem
    exact hremoved.foldl_unsubcribeIfEmpty _

/-- A call subscribes nobody but its agent. -/
theorem mem_subscribers_of_perform {call : SubscriptionCall}
    (h : a ∈ (g.perform call).subscribers c) : a ∈ g.subscribers c ∨ a = call.agent := by
  cases call with
  | subscribe b d =>
    by_cases hd : d.length = 0
    · rw [perform, subscribe_of_length_eq_zero hd] at h
      exact .inl h
    · rw [perform, mem_subscribers_subscribe hd] at h
      exact h.imp_right fun h => h.2.1
  | unsubscribe b d => exact .inl (mem_subscribers_unsubscribe.mp h).1
  | unsubscribeAgent b => exact .inl (mem_subscribers_unsubscribeAgent.mp h).1

/-- **What a call does to the subscriptions of an agent** whose key nobody else has. -/
theorem mem_subscribers_perform (h : g.session2channel.Separate a) {call : SubscriptionCall}
    (hcall : call.agent.hash = a.hash → call.agent = a) :
    a ∈ (g.perform call).subscribers c ↔
      call.effect a c (decide (a ∈ g.subscribers c)) = true := by
  have h' := separate_perform call h hcall
  rw [mem_subscribers, ← h'.converse]
  have hbefore : decide (a ∈ g.subscribers c) = decide (c ∈ g.session2channel.things a) := by
    rw [decide_eq_decide, mem_subscribers, h.converse]
  rw [hbefore]
  cases call with
  | subscribe b d =>
    by_cases hd : d.length = 0
    · rw [perform, subscribe_of_length_eq_zero hd]
      simp [SubscriptionCall.effect, hd]
    · rw [perform, subscribe_session2channel hd, SessionMap.mem_things_add]
      simp [SubscriptionCall.effect, hd, eq_comm (a := b) (b := a), eq_comm (a := d) (b := c)]
  | unsubscribe b d =>
    rw [perform, unsubscribe_session2channel, SessionMap.mem_things_remove]
    simp [SubscriptionCall.effect, eq_comm (a := b) (b := a), eq_comm (a := d) (b := c)]
    exact fun _ => imp_iff_not_or
  | unsubscribeAgent b =>
    rw [perform, unsubscribeAgent_session2channel, SessionMap.mem_things_removeItem]
    simp [SubscriptionCall.effect, eq_comm (a := b) (b := a)]

end Global

/-! ### The network -/

/-- Whether an agent of a server is subscribed to a channel after some calls: on that server, each
call adds to or takes from what the calls before it have left. -/
def subscribedAfter [DecidableEq N] (n : N) (a : Agent) (c : String)
    (calls : List (N × SubscriptionCall)) : Bool :=
  calls.foldl (fun subscribed x => if x.1 = n then x.2.effect a c subscribed else subscribed) false

namespace Network

variable [DecidableEq N] {T : PubSubTree N} {J : Jackson M} {s t : Network N M} {n p k : N}
  {a : Agent} {c : String}

/-- The command, if it is one on the link of the server. -/
def commandOf (n : N) : InFlight N M → Option (Command M)
  | .command n' cmd => if n' = n then some cmd else none
  | .task _ _ | .p2c _ _ _ _ => none

/-- The commands in flight on the link of a server, oldest first. -/
def commands (s : Network N M) (n : N) : List (Command M) := s.flight.filterMap (commandOf n)

/-- The channels on which the link of a server will get messages once the parent has run the
commands in flight. -/
def eventual (T : PubSubTree N) (s : Network N M) (n p : N) : Set String :=
  Command.afterAll ((s.globals p).delivered (T.link n)) (s.commands n)

/-- The tables of the servers are in order. -/
structure Sound (T : PubSubTree N) (s : Network N M) : Prop where
  isPubSub : ∀ n, (s.globals n).isPubSub = T.isPubSub n
  thePubSub : ∀ n, (s.globals n).thePubSub = (T.parent n).map fun _ => []
  resident : ∀ n c, ∀ a ∈ (s.globals n).subscribers c, a ∈ T.residents n
  separate : ∀ n, ∀ a ∈ T.residents n, (s.globals n).session2channel.Separate a

/-- A channel with a subscriber on a server reaches the server's link. -/
def Synced (T : PubSubTree N) (s : Network N M) : Prop :=
  ∀ n p, T.parent n = some p → ∀ c, (s.globals n).session2channel.Occupied c →
    c ∈ s.eventual T n p

/-- The subscribers of a leaf are those of the calls there. -/
def Recorded (T : PubSubTree N) (s : Network N M) : Prop :=
  ∀ n, T.IsLeaf n → ∀ a c, a ∈ (s.globals n).subscribers c ↔ subscribedAfter n a c s.calls = true

/-- Only the tables matter. -/
theorem Sound.frame (h : s.Sound T) (hglobals : t.globals = s.globals) : t.Sound T := by
  obtain ⟨hisPubSub, hlink, hresident, hseparate⟩ := h
  rw [← hglobals] at hisPubSub hlink hresident hseparate
  exact ⟨hisPubSub, hlink, hresident, hseparate⟩

omit [DecidableEq N] in
theorem hash_inj {b : Agent} (ha : a ∈ T.residents n) (hb : b ∈ T.residents n)
    (hash : a.hash = b.hash) : a = b :=
  T.hash_inj n ha hb hash

theorem send_globals_self (g : Global M) :
    (s.send n g).globals n = { g with thePubSub := g.thePubSub.map fun _ => [] } :=
  Function.update_self ..

theorem send_globals_of_ne {m : N} (hm : m ≠ n) (g : Global M) :
    (s.send n g).globals m = s.globals m :=
  Function.update_of_ne hm ..

theorem commands_send (g : Global M) (m : N) :
    (s.send n g).commands m = s.commands m ++ if m = n then g.thePubSub.getD [] else [] := by
  rw [commands, send]
  rw [List.filterMap_append, List.filterMap_map]
  congr 1
  split
  next hm =>
    subst hm
    have hall : (commandOf m ∘ InFlight.command m : Command M → Option (Command M)) = some := by
      funext cmd
      exact if_pos rfl
    rw [hall, List.filterMap_some]
  next hm =>
    rw [List.filterMap_eq_nil_iff]
    intro cmd _
    exact if_neg (Ne.symm hm)

theorem sound_send (h : s.Sound T) {call : SubscriptionCall} (hcall : call.agent ∈ T.residents n) :
    (s.send n ((s.globals n).perform call)).Sound T := by
  refine ⟨fun m => ?_, fun m => ?_, fun m c a ha => ?_, fun m a ha => ?_⟩ <;> by_cases hm : m = n
  · subst hm
    rw [send_globals_self]
    exact (Global.perform_isPubSub call).trans (h.isPubSub m)
  · rw [send_globals_of_ne hm]
    exact h.isPubSub m
  · subst hm
    have hsome := Global.perform_isSome (g := s.globals m) call
    rw [h.thePubSub m] at hsome
    rw [send_globals_self]
    cases hlink : ((s.globals m).perform call).thePubSub <;> cases hparent : T.parent m <;>
      simp_all
  · rw [send_globals_of_ne hm]
    exact h.thePubSub m
  · subst hm
    rw [send_globals_self] at ha
    rcases Global.mem_subscribers_of_perform ha with ha | rfl
    · exact h.resident m c a ha
    · exact hcall
  · rw [send_globals_of_ne hm] at ha
    exact h.resident m c a ha
  · subst hm
    rw [send_globals_self]
    exact Global.separate_perform call (h.separate m a ha) (hash_inj hcall ha)
  · rw [send_globals_of_ne hm]
    exact h.separate m a ha

/-! ### What a call does -/

theorem afterAll_append (E : Set String) (cmds cmds' : List (Command M)) :
    Command.afterAll E (cmds ++ cmds') = Command.afterAll (Command.afterAll E cmds) cmds' :=
  List.foldl_append ..

/-- A call on a server reaches the parent through the commands it sends, and leaves the links of
the children alone but for the one it is about. -/
theorem synced_send (h : s.Sound T) {call : SubscriptionCall} (hcall : call.agent ∈ T.residents n)
    (hup : ∀ k p, T.parent k = some p → (p = n → T.link k ≠ call.agent) →
      ∀ c, (s.globals k).session2channel.Occupied c → c ∈ s.eventual T k p)
    (hlink : ∀ k, T.parent k = some n → T.link k = call.agent →
      ∀ c, (s.globals k).session2channel.Occupied c →
        c ∈ Command.afterAll (((s.globals n).perform call).delivered (T.link k)) (s.commands k)) :
    (s.send n ((s.globals n).perform call)).Synced T := by
  intro k p hk c hc
  have hkp : k ≠ p := Tree.ne_of_parent hk
  rw [eventual]
  rw [commands_send]
  by_cases hkn : k = n
  · -- the server itself
    subst hkn
    rw [send_globals_self] at hc
    rw [send_globals_of_ne hkp.symm, if_pos rfl, afterAll_append]
    have hlinked : ((s.globals k).perform call).thePubSub.isSome = true := by
      rw [Global.perform_isSome, h.thePubSub k, hk]
      rfl
    obtain ⟨cmds, hcmds⟩ := Option.isSome_iff_exists.mp hlinked
    have hcovers : (s.globals k).Covers (s.eventual T k p) := by
      intro cmds' hcmds' d hd
      rw [h.thePubSub k, hk] at hcmds'
      obtain rfl := Option.some.inj hcmds'
      exact hup k p hk (fun hpk => absurd hpk.symm hkp) d hd
    have hmem := hcovers.perform call cmds hcmds c hc
    rwa [hcmds, Option.getD_some]
  · rw [send_globals_of_ne hkn] at hc
    rw [if_neg hkn, List.append_nil]
    by_cases hpn : p = n
    · subst hpn
      rw [send_globals_self]
      by_cases hagent : T.link k = call.agent
      · exact hlink k hk hagent c hc
      · -- a call about another agent does not touch this link
        have hash : call.agent.hash ≠ (T.link k).hash := by
          intro hash
          have hresident : T.link k ∈ T.residents p := .inl ⟨k, hk, rfl⟩
          exact hagent (hash_inj hresident hcall hash.symm)
        have hmem := hup k p hk (fun _ => hagent) c hc
        have hsame := Global.delivered_perform_of_ne (g := s.globals p) hash
        rw [eventual] at hmem
        rw [← hsame] at hmem
        exact hmem
    · rw [send_globals_of_ne hpn]
      exact hup k p hk (fun heq => absurd heq hpn) c hc

/-- **A call of an agent of a leaf** keeps the tree in order. -/
theorem recorded_call (h : s.Sound T) (hrecorded : s.Recorded T) {call : SubscriptionCall}
    (hcall : call.agent ∈ T.residents n) : (s.call n call).Recorded T := by
  intro m hm a c
  have hcalls : subscribedAfter m a c (s.call n call).calls =
      if n = m then call.effect a c (subscribedAfter m a c s.calls)
      else subscribedAfter m a c s.calls := List.foldl_concat ..
  have hold : decide (a ∈ (s.globals m).subscribers c) = subscribedAfter m a c s.calls := by
    rw [Bool.eq_iff_iff, decide_eq_true_iff]
    exact hrecorded m hm a c
  rw [hcalls]
  by_cases hmn : m = n
  · subst hmn
    have hself : ((s.call m call).globals m).subscribers c =
        ((s.globals m).perform call).subscribers c := by
      rw [Network.call, send_globals_self]
      rfl
    rw [if_pos rfl, hself, ← hold]
    by_cases ha : a ∈ T.residents m
    · exact Global.mem_subscribers_perform (h.separate m a ha) (hash_inj hcall ha)
    · -- an agent that does not live here is not subscribed, and no call is about it
      have hne : call.agent ≠ a := fun heq => ha (heq ▸ hcall)
      have hnot : a ∉ (s.globals m).subscribers c := fun hmem => ha (h.resident m c a hmem)
      have heffect : call.effect a c false = false := by
        cases call with
        | subscribe b d =>
          have hbd : b ≠ a := hne
          simp [SubscriptionCall.effect, hbd]
        | unsubscribe b d => rfl
        | unsubscribeAgent b => rfl
      rw [decide_eq_false hnot, heffect]
      refine iff_of_false (fun hmem => ?_) Bool.false_ne_true
      rcases Global.mem_subscribers_of_perform hmem with hmem | heq
      · exact hnot hmem
      · exact hne heq.symm
  · have hother : (s.call n call).globals m = s.globals m := send_globals_of_ne hmn _
    rw [if_neg (Ne.symm hmn), hother]
    exact hrecorded m hm a c

/-! ### What processing a message does -/

/-- The message that is processed is taken out first. -/
theorem process_cases {i : ℕ} (h : s.process T J i = some t) :
    (∃ n cmd, s.flight[i]? = some (.command n cmd) ∧ s.isNext i (.command n cmd) = true ∧
        t = runCommand T { s with flight := s.flight.eraseIdx i } n cmd) ∨
      (∃ n task, s.flight[i]? = some (.task n task) ∧
        t = runTask J { s with flight := s.flight.eraseIdx i } n task) ∨
      ∃ n agent c m, s.flight[i]? = some (.p2c n agent c m) ∧
        t = runP2C T { s with flight := s.flight.eraseIdx i } n agent c m := by
  obtain ⟨x, hi, hx⟩ := Option.bind_eq_some_iff.mp h
  split at hx
  next hnext =>
    cases x with
    | command n cmd => exact .inl ⟨n, cmd, hi, hnext, (Option.some.inj hx).symm⟩
    | task n task => exact .inr (.inl ⟨n, task, hi, (Option.some.inj hx).symm⟩)
    | p2c n agent c m => exact .inr (.inr ⟨n, agent, c, m, hi, (Option.some.inj hx).symm⟩)
  next => exact absurd hx (Option.some_ne_none t).symm

omit [DecidableEq N] in
theorem exists_flight_eq {i : ℕ} {x : InFlight N M} (hi : s.flight[i]? = some x) :
    ∃ l₁ l₂, s.flight = l₁ ++ x :: l₂ ∧ s.flight.eraseIdx i = l₁ ++ l₂ ∧ s.flight.take i = l₁ := by
  obtain ⟨hlt, rfl⟩ := List.getElem?_eq_some_iff.mp hi
  refine ⟨s.flight.take i, s.flight.drop (i + 1), ?_, List.eraseIdx_eq_take_drop_succ .., rfl⟩
  rw [← List.drop_eq_getElem_cons hlt, List.take_append_drop]

/-- The commands of a link go up in order. -/
theorem commands_eq_cons {i : ℕ} {cmd : Command M} (hi : s.flight[i]? = some (.command n cmd))
    (hnext : s.isNext i (.command n cmd) = true) :
    s.commands n = cmd :: commands { s with flight := s.flight.eraseIdx i } n := by
  obtain ⟨l₁, l₂, hold, hnew, htake⟩ := exists_flight_eq hi
  -- no older message is a command of this link
  have hnone : l₁.filterMap (commandOf n) = ([] : List (Command M)) := by
    rw [List.filterMap_eq_nil_iff, ← htake]
    intro x hx
    have hother := List.all_eq_true.mp hnext x hx
    cases x with
    | command n' cmd' => exact if_neg (of_decide_eq_true hother)
    | task n' task => rfl
    | p2c n' agent c m => rfl
  have hself : commandOf n (.command n cmd) = some cmd := if_pos rfl
  unfold commands
  rw [hold, List.filterMap_append, hnone, List.nil_append, List.filterMap_cons_some hself]
  rw [hold] at hnew
  simp only [hnew, List.filterMap_append, hnone, List.nil_append]

/-- Taking another message out leaves the commands of a link alone. -/
theorem commands_eraseIdx {i : ℕ} {x : InFlight N M} (hi : s.flight[i]? = some x)
    (hx : commandOf n x = none) :
    commands { s with flight := s.flight.eraseIdx i } n = s.commands n := by
  obtain ⟨l₁, l₂, hold, hnew, -⟩ := exists_flight_eq hi
  unfold commands
  rw [hold] at hnew ⊢
  simp only [hnew]
  rw [List.filterMap_append, List.filterMap_append, List.filterMap_cons_none hx]

/-- A step that changes neither the tables nor, in effect, the commands on the links. -/
theorem Synced.frame (h : s.Synced T)
    (hglobals : ∀ n, (t.globals n).session2channel = (s.globals n).session2channel)
    (hcommands : ∀ n p, T.parent n = some p → ∀ E,
      Command.afterAll E (t.commands n) = Command.afterAll E (s.commands n)) : t.Synced T := by
  intro n p hn c hc
  rw [hglobals] at hc
  have hmem := h n p hn c hc
  have hdelivered : (t.globals p).delivered (T.link n) = (s.globals p).delivered (T.link n) := by
    ext d
    rw [Global.mem_delivered, Global.mem_delivered, Global.mem_subscribers, Global.mem_subscribers,
      hglobals]
  rw [eventual, hcommands n p hn, hdelivered]
  exact hmem

/-- The parent runs the oldest `Sub` or `Unsub` of a link. -/
theorem synced_receive (h : s.Sound T) (hsynced : s.Synced T) {i : ℕ} {cmd : Command M}
    (hn : T.parent n = some p) (hi : s.flight[i]? = some (.command n cmd))
    (hnext : s.isNext i (.command n cmd) = true) {call : SubscriptionCall}
    (hcall : call.agent = T.link n)
    (hreceive : (s.globals p).receive (T.link n) cmd = (s.globals p).perform call) :
    (Network.send { s with flight := s.flight.eraseIdx i } p
      ((s.globals p).receive (T.link n) cmd)).Synced T := by
  have hresident : T.link n ∈ T.residents p := .inl ⟨n, hn, rfl⟩
  have hsound : Sound T { s with flight := s.flight.eraseIdx i } := h.frame rfl
  rw [hreceive]
  refine synced_send (s := { s with flight := s.flight.eraseIdx i }) hsound
    (hcall ▸ hresident) (fun k q hk hne c hc => ?_) fun k hk hlink c hc => ?_
  · -- the links of other servers
    have hkn : k ≠ n := by
      rintro rfl
      rw [hk, Option.some.injEq] at hn
      exact hne hn hcall.symm
    have hother : commandOf k (.command n cmd) = none := if_neg (Ne.symm hkn)
    have hsame := commands_eraseIdx hi hother
    have hmem := hsynced k q hk c hc
    rw [eventual] at hmem ⊢
    rw [hsame]
    exact hmem
  · -- the link the command came from
    obtain rfl : k = n := T.link_inj p k n hk hn (hlink.trans hcall)
    have hmem := hsynced k p hk c hc
    rw [eventual] at hmem
    rw [commands_eq_cons hi hnext, Command.afterAll_cons,
      ← Global.delivered_receive (h.separate p _ hresident), hreceive] at hmem
    exact hmem

omit [DecidableEq N] in
/-- A server whose commands have all been sent is the same once what it hands to the link now has
been sent. -/
theorem flush_eq {g : Global M} {o : Option N} (hg : g.thePubSub = o.map fun _ => [])
    (f : List (Command M) → List (Command M)) :
    { g with thePubSub := (g.thePubSub.map f).map fun _ => [] } = g := by
  have hmap : ((g.thePubSub.map f).map fun _ => []) = g.thePubSub := by
    rw [hg]
    cases o <;> rfl
  rw [hmap]

/-- `publish` changes no table. -/
theorem publish_globals (h : s.Sound T) (c : String) (m : M) (except : Option Agent) :
    (s.publish n c m except).globals = s.globals := by
  funext k
  by_cases hc : c.length = 0
  · simp only [publish, Global.publish, hc, if_true]
    by_cases hkn : k = n
    · subst hkn
      have hflush := flush_eq (h.thePubSub k) id
      rw [Option.map_id] at hflush
      exact (send_globals_self _).trans hflush
    · exact send_globals_of_ne hkn _
  · simp only [publish, Global.publish, hc, if_false]
    by_cases hkn : k = n
    · subst hkn
      exact (send_globals_self _).trans (flush_eq (h.thePubSub k) _)
    · exact send_globals_of_ne hkn _

/-- What `publish` puts in flight: a `d.Pub` if there is a parent, and the task. -/
theorem publish_flight (h : s.Sound T) (c : String) (m : M) (except : Option Agent) :
    (s.publish n c m except).flight = s.flight ++
      if c.length = 0 then []
      else (if (T.parent n).isSome then [.command n (.pub c m)] else []) ++
        [.task n (.publish c m except)] := by
  have hlink := h.thePubSub n
  by_cases hc : c.length = 0
  · have hnil : (s.globals n).thePubSub.getD [] = [] := by
      rw [hlink]
      cases T.parent n <;> rfl
    simp only [publish, Global.publish, hc, if_true, send, hnil, List.map_nil, List.append_nil]
  · have hpub : ((s.globals n).enqueue (.pub c m)).thePubSub.getD [] =
        if (T.parent n).isSome then [.pub c m] else [] := by
      rw [Global.enqueue, hlink]
      cases T.parent n <;> rfl
    simp only [publish, Global.publish, hc, if_false, send, hpub, List.map_cons, List.map_nil,
      List.append_assoc]
    split <;> rfl

theorem put_messageQ (runnable : Queued M) (agent : Agent) (k : N) (a : Agent) :
    (s.put n runnable agent).messageQ k a =
      s.messageQ k a ++ if k = n ∧ a = agent then [runnable] else [] := by
  by_cases hk : k = n
  · subst hk
    by_cases ha : a = agent
    · subst ha
      simp [put]
    · simp [put, ha]
  · simp [put, hk]

/-- What a task does: it puts a message on the `messageQ` of each of its agents. -/
theorem foldl_put (agents : List Agent) (runnable : Queued M) (s : Network N M) :
    (agents.foldl (fun s agent => s.put n runnable agent) s).globals = s.globals ∧
      (agents.foldl (fun s agent => s.put n runnable agent) s).calls = s.calls ∧
      (agents.foldl (fun s agent => s.put n runnable agent) s).flight =
        s.flight ++ agents.flatMap (fun agent => forwarded n agent runnable) ∧
      ∀ k a, (agents.foldl (fun s agent => s.put n runnable agent) s).messageQ k a =
        s.messageQ k a ++ if k = n then List.replicate (agents.count a) runnable else [] := by
  induction agents generalizing s with
  | nil => simp
  | cons agent agents ih =>
    obtain ⟨hglobals, hcalls, hflight, hmessageQ⟩ := ih (s.put n runnable agent)
    rw [List.foldl_cons]
    refine ⟨hglobals, hcalls, ?_, fun k a => ?_⟩
    · rw [hflight, List.flatMap_cons, ← List.append_assoc]
      rfl
    · rw [hmessageQ, put_messageQ, List.count_cons, List.append_assoc]
      by_cases hk : k = n
      · by_cases ha : a = agent
        · simp [hk, ha, List.replicate_succ]
        · simp [hk, ha, Ne.symm ha]
      · simp [hk]

theorem commandOf_forwarded {x : InFlight N M} {agent : Agent} {runnable : Queued M}
    (hx : x ∈ forwarded n agent runnable) (k : N) : commandOf k x = none := by
  cases runnable with
  | p2c m c =>
    rw [forwarded, List.mem_singleton] at hx
    rw [hx]
    rfl
  | wrapper c m => cases hx

/-- Putting a message on `messageQ`s sends no command. -/
theorem runTask_commands (task : Task M) (k : N) :
    (s.runTask J n task).commands k = s.commands k := by
  unfold runTask
  split
  next agents runnable _ =>
    unfold commands
    rw [(foldl_put agents runnable s).2.2.1, List.filterMap_append]
    have hnone : (agents.flatMap fun agent => forwarded n agent runnable).filterMap (commandOf k) =
        [] := by
      rw [List.filterMap_eq_nil_iff]
      intro x hx
      obtain ⟨agent, -, hx⟩ := List.mem_flatMap.mp hx
      exact commandOf_forwarded hx k
    rw [hnone, List.append_nil]
  next => rfl

theorem runTask_globals (task : Task M) : (s.runTask J n task).globals = s.globals := by
  rw [runTask]
  split
  next agents runnable _ => exact (foldl_put agents runnable s).1
  next => rfl

theorem runTask_calls (task : Task M) : (s.runTask J n task).calls = s.calls := by
  rw [runTask]
  split
  next agents runnable _ => exact (foldl_put agents runnable s).2.1
  next => rfl

theorem runP2C_globals (m : String) : (s.runP2C T n a c m).globals = s.globals := by
  rw [runP2C]
  split <;> rfl

theorem runP2C_calls (m : String) : (s.runP2C T n a c m).calls = s.calls := by
  rw [runP2C]
  split <;> rfl

theorem runP2C_commands (m : String) (k : N) : (s.runP2C T n a c m).commands k = s.commands k := by
  rw [runP2C]
  split
  · exact (List.filterMap_append ..).trans (List.append_nil _)
  · rfl

/-- A `d.Pub` is a command that subscribes nothing. -/
theorem afterAll_publish (h : s.Sound T) (c : String) (m : M) (except : Option Agent) (k : N)
    (E : Set String) :
    Command.afterAll E ((s.publish n c m except).commands k) =
      Command.afterAll E (s.commands k) := by
  have hpub : Command.afterAll E (s.commands k ++ [.pub c m]) =
      Command.afterAll E (s.commands k) := Command.afterAll_concat
  have htask : [InFlight.task n (.publish c m except)].filterMap (commandOf k) = [] := rfl
  unfold commands at hpub ⊢
  rw [publish_flight h, List.filterMap_append]
  split
  · exact congrArg _ (List.append_nil _)
  · rw [List.filterMap_append, htask, List.append_nil]
    split
    · by_cases hkn : n = k
      · have hself : [InFlight.command n (.pub c m)].filterMap (commandOf k) = [.pub c m] := by
          simp [commandOf, hkn]
        rw [hself, hpub]
      · have hother : [InFlight.command n (.pub c m)].filterMap (commandOf k) = [] := by
          simp [commandOf, hkn]
        rw [hother, List.append_nil]
    · exact congrArg _ (List.append_nil _)

/-! ### The invariant -/

/-- What holds of the network after every step. -/
structure Consistent (T : PubSubTree N) (s : Network N M) : Prop where
  sound : s.Sound T
  synced : s.Synced T
  recorded : s.Recorded T

theorem Consistent.frame (h : s.Consistent T) (hglobals : t.globals = s.globals)
    (hcalls : t.calls = s.calls)
    (hcommands : ∀ n p, T.parent n = some p → ∀ E,
      Command.afterAll E (t.commands n) = Command.afterAll E (s.commands n)) :
    t.Consistent T where
  sound := h.sound.frame hglobals
  synced := h.synced.frame (fun n => by rw [hglobals]) hcommands
  recorded n hn a c := by
    rw [hglobals, hcalls]
    exact h.recorded n hn a c

/-- The parent runs a command of a link. -/
theorem consistent_runCommand (h : s.Consistent T) {i : ℕ} {cmd : Command M}
    (hi : s.flight[i]? = some (.command n cmd)) (hnext : s.isNext i (.command n cmd) = true) :
    (runCommand T { s with flight := s.flight.eraseIdx i } n cmd).Consistent T := by
  have hothers : ∀ k, k ≠ n →
      commands { s with flight := s.flight.eraseIdx i } k = s.commands k := fun k hk =>
    commands_eraseIdx hi (if_neg (Ne.symm hk))
  have hsound : Sound T { s with flight := s.flight.eraseIdx i } := h.sound.frame rfl
  rw [runCommand]
  split
  next p hn =>
    have hresident : T.link n ∈ T.residents p := .inl ⟨n, hn, rfl⟩
    -- a `Sub` or an `Unsub` is a call of the link agent on the parent, which is not a leaf
    have hcall : ∀ call : SubscriptionCall, call.agent = T.link n →
        (s.globals p).receive (T.link n) cmd = (s.globals p).perform call →
        (Network.send { s with flight := s.flight.eraseIdx i } p
          ((s.globals p).receive (T.link n) cmd)).Consistent T := by
      intro call hagent hreceive
      refine ⟨?_, synced_receive h.sound h.synced hn hi hnext hagent hreceive, ?_⟩
      · rw [hreceive]
        exact sound_send hsound (hagent ▸ hresident)
      · intro m hm a c
        have hmp : m ≠ p := hm.ne_of_parent hn
        rw [send_globals_of_ne hmp]
        exact h.recorded m hm a c
    cases cmd with
    | sub c => exact hcall (.subscribe (T.link n) c) rfl rfl
    | unsub c => exact hcall (.unsubscribe (T.link n) c) rfl rfl
    | pub c m =>
      refine h.frame (publish_globals hsound ..) rfl fun k q hk E => ?_
      rw [afterAll_publish hsound]
      by_cases hkn : k = n
      · subst hkn
        rw [commands_eq_cons hi hnext]
        rfl
      · rw [hothers k hkn]
  next hn =>
    refine h.frame rfl rfl fun k q hk E => ?_
    have hkn : k ≠ n := by
      rintro rfl
      rw [hn] at hk
      exact absurd hk (Option.some_ne_none q).symm
    rw [hothers k hkn]

/-- Processing a message keeps the invariant. -/
theorem consistent_process (h : s.Consistent T) {i : ℕ} (hprocess : s.process T J i = some t) :
    t.Consistent T := by
  rcases process_cases hprocess with
    ⟨n, cmd, hi, hnext, rfl⟩ | ⟨n, task, hi, rfl⟩ | ⟨n, agent, c, m, hi, rfl⟩
  · exact consistent_runCommand h hi hnext
  · refine h.frame (runTask_globals task) (runTask_calls task) fun k p _ E => ?_
    rw [runTask_commands, commands_eraseIdx hi rfl]
  · refine h.frame (runP2C_globals m) (runP2C_calls m) fun k p _ E => ?_
    rw [runP2C_commands, commands_eraseIdx hi rfl]

theorem afterAll_mono {E E' : Set String} (h : E ⊆ E') (cmds : List (Command M)) :
    Command.afterAll E cmds ⊆ Command.afterAll E' cmds := by
  induction cmds generalizing E E' with
  | nil => exact h
  | cons cmd cmds ih =>
    refine ih ?_
    cases cmd with
    | sub c =>
      simp only [Command.onChannels]
      split
      · exact h
      · exact Set.insert_subset_insert h
    | unsub c => exact Set.sdiff_subset_sdiff_left h
    | pub c m => exact h

/-- A call keeps the invariant, unless it unsubscribes the link of a child. -/
theorem consistent_call (h : s.Consistent T) {call : SubscriptionCall}
    (hcall : call.agent ∈ T.residents n)
    (hlink : ∀ k, T.parent k = some n → T.link k = call.agent →
      ∃ c, call = .subscribe (T.link k) c) : (s.call n call).Consistent T := by
  refine ⟨(sound_send h.sound hcall).frame rfl, ?_, recorded_call h.sound h.recorded hcall⟩
  have hsynced : (s.send n ((s.globals n).perform call)).Synced T := by
    refine synced_send h.sound hcall (fun k p hk _ => h.synced k p hk) fun k hk hagent c hc => ?_
    obtain ⟨d, rfl⟩ := hlink k hk hagent
    refine afterAll_mono ?_ _ (h.synced k n hk c hc)
    intro e he
    by_cases hd : d.length = 0
    · rwa [Global.perform, Global.subscribe_of_length_eq_zero hd]
    · exact (Global.mem_subscribers_subscribe hd).mpr (.inl he)
  exact hsynced

/-- The network without any subscription. -/
theorem consistent_blank (T : PubSubTree N) :
    Consistent T ({ globals := fun n =>
      { isPubSub := T.isPubSub n, thePubSub := (T.parent n).map fun _ => [] } } : Network N M) where
  sound := by
    refine ⟨fun n => rfl, fun n => rfl, fun n c a ha => ?_, fun n a _ => SessionMap.separate_empty⟩
    exact absurd (Global.mem_subscribers.mp ha) TwoWayMapping.not_mem_items_empty
  synced n p _ c hc := absurd hc SessionMap.not_occupied_empty
  recorded n _ a c := by
    refine iff_of_false (fun ha => ?_) Bool.false_ne_true
    exact absurd (Global.mem_subscribers.mp ha) TwoWayMapping.not_mem_items_empty

theorem consistent_start (T : PubSubTree N) : Consistent T (T.start : Network N M) := by
  have hfold : ∀ calls : List (N × SubscriptionCall),
      (∀ x ∈ calls, x.2.agent ∈ T.residents x.1 ∧ ∃ c, x.2 = .subscribe x.2.agent c) →
      ∀ s : Network N M, s.Consistent T →
        (calls.foldl (fun s (x : N × SubscriptionCall) => s.call x.1 x.2) s).Consistent T := by
    intro calls hcalls
    induction calls with
    | nil => exact fun s hs => hs
    | cons x calls ih =>
      intro s hs
      obtain ⟨⟨hresident, c, hc⟩, hcalls⟩ := List.forall_mem_cons.mp hcalls
      refine ih hcalls _ (consistent_call hs hresident fun k _ hk => ⟨c, ?_⟩)
      rw [hk]
      exact hc
  refine hfold _ (fun x hx => ?_) _ (consistent_blank T)
  obtain ⟨n, -, hn⟩ := List.mem_flatMap.mp hx
  rw [PubSubTree.constructorCalls] at hn
  split at hn
  next p hparent =>
    rcases List.mem_pair.mp hn with rfl | rfl
    · exact ⟨.inl ⟨n, hparent, rfl⟩, _, rfl⟩
    · have hne : T.parent n ≠ none := by
        rw [hparent]
        exact Option.some_ne_none p
      exact ⟨.inr (.inl ⟨hne, rfl⟩), _, rfl⟩
  next => exact absurd hn List.not_mem_nil

/-- **Every state of the network is consistent**, whatever the agents of the leaves have called
and published, and in whatever order the messages have been processed. -/
theorem consistent_of_runs (h : (T.machine J).Runs T.Sequential T.start s) : s.Consistent T := by
  refine h.invariant (I := Consistent T) ?_ (consistent_start T)
  intro t u action hG ht hstep
  cases action with
  | call n call =>
    obtain ⟨hleaf, hagent, -⟩ := hG
    obtain rfl := Option.some.inj hstep
    exact consistent_call ht (.inr (.inr ⟨hleaf, hagent⟩)) fun k hk _ => absurd hk (hleaf k)
  | publish n c m =>
    obtain rfl := Option.some.inj hstep
    exact ht.frame (publish_globals ht.sound c m none) rfl fun k p _ E =>
      afterAll_publish ht.sound c m none k E
  | process i => exact consistent_process ht hstep

end Network

end Gwems
