import Gwems.Servers.Link

/-!
# Concurrent subscriptions and the parent's table

Inside a server, `subscribe`, `unsubscribe` and `unsubscribeAgent` run on pool threads, and
only the single calls on `session2channel` and on `thePubSub` are synchronized. This module
takes the three functions apart: a thread is at one of the points between two such calls, a
step moves one thread past its next call, and the parent processes the commands on the link
one by one.

A function that reads the subscriber set and acts on it later can act on a set that has
changed. `upstream_disagrees` shows both consequences: a channel with a local subscriber for
which the last command sent is an `Unsub`, and a channel without one that the parent keeps
sending. `upstream_agrees` is the rest of the story. The steps that go wrong are of two kinds,
`Thread.SafeNext` excludes exactly these for one channel, and in every run without them the
parent and the server agree on that channel whenever no call is in progress.

The invariant (`Agrees`) reads the link through `eventual`, the channels the parent will have
given the link agent once it has processed what is on the way.
-/

namespace Gwems

variable {M : Type*}

/-- Where a thread is inside one of the three functions: before the call that the name says.
`checking` is the end of `unsubscribe` and the loop of `unsubscribeAgent`, with the channels
still to look at. -/
inductive Thread
  | reading (agent : Agent) (channel : String)
  | sendingSub (agent : Agent) (channel : String)
  | adding (agent : Agent) (channel : String)
  | removing (agent : Agent) (channel : String)
  | readingItem (agent : Agent)
  | removingItem (agent : Agent) (channels : List String)
  | checking (channels : List String)
  | sendingUnsub (channel : String) (channels : List String)
  | returned
deriving DecidableEq

namespace Thread

/-- The first point of each function. -/
def start : SubscriptionCall → Thread
  | .subscribe agent channel => reading agent channel
  | .unsubscribe agent channel => removing agent channel
  | .unsubscribeAgent agent => readingItem agent

/-- Move past the next synchronized call. The statement counters are updated with the call
next to them. -/
def next (g : Global M) : Thread → Option (Global M × Thread)
  | reading agent channel =>
    if channel.length = 0 then some (g, returned)
    else if (g.session2channel.thing2items_get channel).isEmpty then
      some (g, sendingSub agent channel)
    else some (g, adding agent channel)
  | sendingSub agent channel => some (g.enqueue (.sub channel), adding agent channel)
  | adding agent channel =>
    some ({ g with
      subscriptionsRecorded := g.subscriptionsRecorded + 1
      session2channel := g.session2channel.add (some agent) (some channel) }, returned)
  | removing agent channel =>
    some ({ g with
      unsubscriptionsRecorded := g.unsubscriptionsRecorded + 1
      session2channel := (g.session2channel.remove agent channel).1 }, checking [channel])
  | readingItem agent => some (g, removingItem agent (g.session2channel.item2things_get agent).elems)
  | removingItem agent channels =>
    some ({ g with
      unsubscriptionsRecorded := g.unsubscriptionsRecorded + 1
      session2channel := (g.session2channel.removeItem agent).1 }, checking channels)
  | checking [] => some (g, returned)
  | checking (channel :: channels) =>
    if (g.session2channel.thing2items_get channel).isEmpty then
      some (g, sendingUnsub channel channels)
    else some (g, checking channels)
  | sendingUnsub channel channels => some (g.enqueue (.unsub channel), checking channels)
  | returned => none

/-- The moves of a thread, one by one. -/
inductive Moves (g : Global M) : Thread → Global M → Thread → Prop
  | nameless {a : Agent} {c : String} (hc : c.length = 0) : Moves g (reading a c) g returned
  | foundEmpty {a : Agent} {c : String} (hc : c.length ≠ 0) (h : ¬g.session2channel.Occupied c) :
      Moves g (reading a c) g (sendingSub a c)
  | foundOccupied {a : Agent} {c : String} (hc : c.length ≠ 0) (h : g.session2channel.Occupied c) :
      Moves g (reading a c) g (adding a c)
  | sendSub {a : Agent} {c : String} :
      Moves g (sendingSub a c) (g.enqueue (.sub c)) (adding a c)
  | add {a : Agent} {c : String} :
      Moves g (adding a c)
        { g with
          subscriptionsRecorded := g.subscriptionsRecorded + 1
          session2channel := g.session2channel.add (some a) (some c) } returned
  | remove {a : Agent} {c : String} :
      Moves g (removing a c)
        { g with
          unsubscriptionsRecorded := g.unsubscriptionsRecorded + 1
          session2channel := (g.session2channel.remove a c).1 } (checking [c])
  | readItem {a : Agent} :
      Moves g (readingItem a) g (removingItem a (g.session2channel.item2things_get a).elems)
  | removeItem {a : Agent} {cs : List String} :
      Moves g (removingItem a cs)
        { g with
          unsubscriptionsRecorded := g.unsubscriptionsRecorded + 1
          session2channel := (g.session2channel.removeItem a).1 } (checking cs)
  | checked : Moves g (checking []) g returned
  | becameEmpty {c : String} {cs : List String} (h : ¬g.session2channel.Occupied c) :
      Moves g (checking (c :: cs)) g (sendingUnsub c cs)
  | staysOccupied {c : String} {cs : List String} (h : g.session2channel.Occupied c) :
      Moves g (checking (c :: cs)) g (checking cs)
  | sendUnsub {c : String} {cs : List String} :
      Moves g (sendingUnsub c cs) (g.enqueue (.unsub c)) (checking cs)

/-- The inversion of a move. -/
theorem next_cases {g g' : Global M} {p p' : Thread} (h : p.next g = some (g', p')) :
    Moves g p g' p' := by
  cases p with
  | reading a c =>
    simp only [next] at h
    split at h
    next hc => cases h; exact .nameless hc
    next hc =>
      split at h
      next hempty => cases h; exact .foundEmpty hc (SessionMap.not_occupied_iff.mpr hempty)
      next hsome =>
        cases h
        rw [← SessionMap.not_occupied_iff, not_not] at hsome
        exact .foundOccupied hc hsome
  | sendingSub a c => cases h; exact .sendSub
  | adding a c => cases h; exact .add
  | removing a c => cases h; exact .remove
  | readingItem a => cases h; exact .readItem
  | removingItem a cs => cases h; exact .removeItem
  | checking cs =>
    cases cs with
    | nil => cases h; exact .checked
    | cons c cs =>
      simp only [next] at h
      split at h
      next hempty => cases h; exact .becameEmpty (SessionMap.not_occupied_iff.mpr hempty)
      next hsome =>
        cases h
        rw [← SessionMap.not_occupied_iff, not_not] at hsome
        exact .staysOccupied hsome
  | sendingUnsub c cs => cases h; exact .sendUnsub
  | returned => cases h

end Thread

/-- A server with its threads, and its parent. The commands on the way are in
`child.thePubSub`. -/
structure Upstream (M : Type*) where
  child : Global M
  parent : Global M
  threads : List Thread := []

namespace Upstream

/-- What can happen next: a function is called, a thread moves, the parent processes a
command, or another agent of the parent calls one of the functions there. -/
inductive Action
  | call (call : SubscriptionCall)
  | move (i : ℕ)
  | deliver
  | elsewhere (call : SubscriptionCall)

/-- A server below the session `link` of its parent. -/
def machine (M : Type*) (link : Agent) : Machine (Upstream M) Action where
  step s
    | .call call => some { s with threads := s.threads ++ [.start call] }
    | .move i =>
      match s.threads[i]? with
      | some p => (p.next s.child).map fun (g, p') =>
          { s with child := g, threads := s.threads.set i p' }
      | none => none
    | .deliver =>
      match s.child.thePubSub with
      | some (cmd :: cmds) => some { s with
          child := { s.child with thePubSub := some cmds }
          parent := s.parent.receive link cmd }
      | _ => none
    | .elsewhere call =>
      if call.agent.hash ≠ link.hash then some { s with parent := s.parent.perform call }
      else none

variable {link : Agent} {s t : Upstream M}

/-- What one step can do. -/
theorem step_cases {a : Action} (h : (machine M link).step s a = some t) :
    (∃ call, a = .call call ∧ t = { s with threads := s.threads ++ [.start call] }) ∨
      (∃ i p g p', a = .move i ∧ s.threads[i]? = some p ∧ p.next s.child = some (g, p') ∧
        t = { s with child := g, threads := s.threads.set i p' }) ∨
      (∃ cmd cmds, s.child.thePubSub = some (cmd :: cmds) ∧
        t = { s with
          child := { s.child with thePubSub := some cmds }
          parent := s.parent.receive link cmd }) ∨
      ∃ call : SubscriptionCall, call.agent.hash ≠ link.hash ∧
        t = { s with parent := s.parent.perform call } := by
  cases a with
  | call call => exact .inl ⟨call, rfl, (Option.some.inj h).symm⟩
  | move i =>
    simp only [machine] at h
    split at h
    next p hp =>
      obtain ⟨⟨g, p'⟩, hnext, rfl⟩ := Option.map_eq_some_iff.mp h
      exact .inr (.inl ⟨i, p, g, p', rfl, hp, hnext, rfl⟩)
    next => cases h
  | deliver =>
    simp only [machine] at h
    split at h
    next cmd cmds hq => exact .inr (.inr (.inl ⟨cmd, cmds, hq, (Option.some.inj h).symm⟩))
    next => cases h
  | elsewhere call =>
    simp only [machine] at h
    split at h
    next hne => exact .inr (.inr (.inr ⟨call, hne, (Option.some.inj h).symm⟩))
    next => cases h

/-! ### A function that runs alone

A thread that nobody interrupts computes the function of `Gwems.Servers.Global`. -/

end Upstream

namespace Thread

/-- A thread that moves alone returns and leaves the server in the last state. -/
inductive Finishes : Global M → Thread → Global M → Prop
  | returned (g : Global M) : Finishes g returned g
  | next {g g' g'' : Global M} {p p' : Thread} :
      p.next g = some (g', p') → Finishes g' p' g'' → Finishes g p g''

/-- The loop over the channels is the fold of `unsubcribeIfEmpty`. -/
theorem finishes_checking (g : Global M) (channels : List String) :
    Finishes g (checking channels) (channels.foldl Global.unsubcribeIfEmpty g) := by
  induction channels generalizing g with
  | nil => exact .next rfl (.returned g)
  | cons c cs ih =>
    rw [List.foldl_cons, Global.unsubcribeIfEmpty]
    split
    next hempty => exact .next (if_pos hempty) (.next rfl (ih _))
    next hempty => exact .next (if_neg hempty) (ih g)

/-- **A function that runs alone is atomic.** -/
theorem finishes_start (g : Global M) (call : SubscriptionCall) :
    Finishes g (start call) (g.perform call) := by
  cases call with
  | subscribe a c =>
    rw [Global.perform, Global.subscribe]
    split
    next hc => exact .next (if_pos hc) (.returned g)
    next hc =>
      -- the two branches differ in the command sent before the agent is added
      by_cases hempty : (g.session2channel.thing2items_get c).isEmpty
      · simp only [hempty, if_true]
        exact .next ((if_neg hc).trans (if_pos hempty)) (.next rfl (.next rfl (.returned _)))
      · simp only [hempty]
        exact .next ((if_neg hc).trans (if_neg hempty)) (.next rfl (.returned _))
  | unsubscribe a c => exact .next rfl (finishes_checking _ [c])
  | unsubscribeAgent a => exact .next rfl (.next rfl (finishes_checking _ _))

end Thread

namespace Upstream

variable {link : Agent} {s t : Upstream M}

theorem step_move {i : ℕ} {p p' : Thread} {g : Global M} (hi : s.threads[i]? = some p)
    (hnext : p.next s.child = some (g, p')) :
    (machine M link).step s (.move i) =
      some { s with child := g, threads := s.threads.set i p' } := by
  simp only [machine, hi, hnext, Option.map_some]

/-- A thread that moves alone in the machine. -/
theorem exists_run_of_finishes (link : Agent) {i : ℕ} {p : Thread} {g : Global M}
    (hi : s.threads[i]? = some p) (h : p.Finishes s.child g) :
    ∃ n, (machine M link).run s (List.replicate n (.move i)) =
      some { s with child := g, threads := s.threads.set i .returned } := by
  have hlt : i < s.threads.length := (List.getElem?_eq_some_iff.mp hi).1
  generalize hg : s.child = g₀ at h
  induction h generalizing s with
  | returned g₀ =>
    have hset : s.threads.set i .returned = s.threads := by
      rw [← (List.getElem?_eq_some_iff.mp hi).2, List.set_getElem_self]
    exact ⟨0, by rw [hset, ← hg]; rfl⟩
  | @next _ g' _ p p' hnext _ ih =>
    subst hg
    obtain ⟨n, hn⟩ := ih (s := { s with child := g', threads := s.threads.set i p' })
      (List.getElem?_set_self hlt) (by simpa using hlt) rfl
    refine ⟨n + 1, ?_⟩
    rw [List.replicate_succ, Machine.run_cons, step_move hi hnext, Option.bind_some, hn,
      List.set_set]

/-- A call whose thread moves alone has the effect of the function. -/
theorem exists_run_call (s : Upstream M) (call : SubscriptionCall) :
    ∃ n, (machine M link).run s (.call call :: List.replicate n (.move s.threads.length)) =
      some { s with
        child := s.child.perform call
        threads := s.threads ++ [.returned] } := by
  obtain ⟨n, hn⟩ := exists_run_of_finishes link
    (s := { s with threads := s.threads ++ [.start call] }) List.getElem?_concat_length
    (Thread.finishes_start s.child call)
  have hset : (s.threads ++ [Thread.start call]).set s.threads.length .returned =
      s.threads ++ [.returned] := by simp
  exact ⟨n, hset ▸ hn⟩

end Upstream

/-! ### The steps that go wrong -/

namespace Thread

/-- The thread will still look at the channel or send a command for it. -/
def owes (c : String) : Thread → Bool
  | reading _ d | sendingSub _ d | adding _ d | removing _ d => d = c
  | readingItem _ => false
  | removingItem _ ds | checking ds => c ∈ ds
  | sendingUnsub d ds => d = c ∨ c ∈ ds
  | returned => false

/-- The thread has found nobody on the channel and will send a `Sub`. -/
def willSub (c : String) : Thread → Bool
  | sendingSub _ d => d = c
  | _ => false

/-- The thread will add its agent and send no `Sub` for it any more. -/
def willAdd (c : String) : Thread → Bool
  | adding _ d => d = c
  | _ => false

/-- The next call of a thread does no harm to a channel, in the state `s` before it.

* An `Unsub` is sent while the channel has no local subscriber and none is about to be added
  behind it, or while a `Sub` is still to follow.
* The removal of an agent leaves a subscriber on a channel that the thread did not read from
  the agent before, or some thread will still look at that channel. -/
def SafeNext (c : String) (s : Upstream M) : Thread → Prop
  | sendingUnsub d _ => d = c →
    (∃ p ∈ s.threads, p.willSub c) ∨
      (s.child.subscribers c).isEmpty ∧ ¬∃ p ∈ s.threads, p.willAdd c
  | removingItem a ds => c ∉ ds → c ∈ (s.child.channels a).elems →
    (∃ b ∈ (s.child.subscribers c).elems, b.hash ≠ a.hash) ∨ ∃ p ∈ s.threads, p.owes c
  | _ => True

instance (c : String) (s : Upstream M) : DecidablePred (SafeNext c s)
  | sendingUnsub d _ => inferInstanceAs (Decidable (d = c →
      (∃ p ∈ s.threads, p.willSub c) ∨
        (s.child.subscribers c).isEmpty ∧ ¬∃ p ∈ s.threads, p.willAdd c))
  | removingItem a ds => inferInstanceAs (Decidable (c ∉ ds → c ∈ (s.child.channels a).elems →
      (∃ b ∈ (s.child.subscribers c).elems, b.hash ≠ a.hash) ∨ ∃ p ∈ s.threads, p.owes c))
  | reading _ _ | sendingSub _ _ | adding _ _ | removing _ _ | readingItem _ | checking _
  | returned => isTrue trivial

end Thread

namespace Upstream

variable {link : Agent} {s t : Upstream M} {c : String}

/-- A step that does no harm to a channel. -/
def Safe (c : String) (s : Upstream M) : Action → Prop
  | .move i => ∀ p ∈ s.threads[i]?, p.SafeNext c s
  | .call _ | .deliver | .elsewhere _ => True

instance (s : Upstream M) (a : Action) : Decidable (Safe c s a) :=
  match a with
  | .move i => inferInstanceAs (Decidable (∀ p ∈ s.threads[i]?, p.SafeNext c s))
  | .call _ | .deliver | .elsewhere _ => isTrue trivial

/-! ### The invariant -/

/-- The balance of a channel: whether it is `occupied` by a local subscriber, whether it will be
`known` to the parent, and whether threads will add, will send a `Sub`, or owe it anything. -/
structure Balanced (c : String) (occupied known willAdd willSub owed : Prop) : Prop where
  /-- Nothing is lost: a subscriber, present or about to be added, is known to the parent, or a
  `Sub` is still to be sent. -/
  known_of : occupied ∨ willAdd → known ∨ willSub
  /-- Nothing is leaked: a channel the parent sends has a subscriber, or a thread will still
  look at it. -/
  occupied_of : known → occupied ∨ owed
  /-- The empty name is no channel. -/
  nameless : c.length = 0 → ¬known ∧ ¬willSub

/-- The channels the parent will have given the link once it has processed what is on the
way. -/
def eventual (s : Upstream M) (link : Agent) : Set String :=
  Command.afterAll (s.parent.delivered link) (s.child.thePubSub.getD [])

/-- The server and its parent agree on a channel, up to what the threads still have to do. -/
structure Agrees (link : Agent) (c : String) (s : Upstream M) : Prop where
  linked : s.child.thePubSub.isSome
  separate : s.parent.session2channel.Separate link
  balanced : Balanced c (s.child.session2channel.Occupied c) (c ∈ s.eventual link)
    (∃ p ∈ s.threads, p.willAdd c) (∃ p ∈ s.threads, p.willSub c) (∃ p ∈ s.threads, p.owes c)

/-- A command handed to the link takes effect behind all the others. -/
theorem eventual_enqueue {cmd : Command M} (h : s.child.thePubSub.isSome) (l : List Thread) :
    eventual { s with child := s.child.enqueue cmd, threads := l } link =
      cmd.onChannels (s.eventual link) := by
  obtain ⟨cmds, hcmds⟩ := Option.isSome_iff_exists.mp h
  simp [eventual, Global.enqueue, hcmds]

theorem Agrees.deliver (h : Agrees link c s) {cmd : Command M} {cmds : List (Command M)}
    (hq : s.child.thePubSub = some (cmd :: cmds)) :
    Agrees link c { s with
      child := { s.child with thePubSub := some cmds }
      parent := s.parent.receive link cmd } := by
  have heventual : eventual { s with
      child := { s.child with thePubSub := some cmds }
      parent := s.parent.receive link cmd } link = s.eventual link := by
    simp [eventual, hq, Global.delivered_receive h.separate]
  exact ⟨rfl, Global.separate_receive h.separate cmd, heventual ▸ h.balanced⟩

theorem Agrees.elsewhere (h : Agrees link c s) {call : SubscriptionCall}
    (hcall : call.agent.hash ≠ link.hash) :
    Agrees link c { s with parent := s.parent.perform call } := by
  have heventual : eventual { s with parent := s.parent.perform call } link = s.eventual link := by
    simp [eventual, Global.delivered_perform_of_ne hcall]
  exact ⟨h.linked, Global.separate_perform call h.separate fun hkey => absurd hkey hcall,
    heventual ▸ h.balanced⟩

theorem Agrees.call (h : Agrees link c s) (call : SubscriptionCall) :
    Agrees link c { s with threads := s.threads ++ [.start call] } := by
  have hmem : ∀ P : Thread → Prop, (∃ p ∈ s.threads ++ [Thread.start call], P p) ↔
      (∃ p ∈ s.threads, P p) ∨ P (.start call) := fun P => by
    simp only [List.mem_append, List.mem_singleton, or_and_right, exists_or, exists_eq_left]
  have hsub : ¬(Thread.start call).willSub c := by cases call <;> exact Bool.false_ne_true
  have hadd : ¬(Thread.start call).willAdd c := by cases call <;> exact Bool.false_ne_true
  refine ⟨h.linked, h.separate, ?_⟩
  rw [hmem, hmem, hmem, or_iff_left hsub, or_iff_left hadd]
  obtain ⟨hk, ho, hn⟩ := h.balanced
  exact ⟨hk, fun hc => (ho hc).imp_right .inl, hn⟩

/-- A step that changes neither the map nor the link keeps the balance if the thread keeps its
`Sub` to send, takes on an `add` only with a subscriber present, and forgets a channel only then. -/
theorem Balanced.silent {occupied known A S O : Prop} {p p' : Thread}
    (h : Balanced c occupied known (p.willAdd c ∨ A) (p.willSub c ∨ S) (p.owes c ∨ O))
    (hadd : p'.willAdd c → p.willAdd c ∨ occupied) (hsub : p.willSub c → p'.willSub c)
    (hsub' : p'.willSub c → c.length ≠ 0) (howes : p.owes c → p'.owes c ∨ occupied ∨ c.length = 0) :
    Balanced c occupied known (p'.willAdd c ∨ A) (p'.willSub c ∨ S) (p'.owes c ∨ O) := by
  obtain ⟨hk, ho, hn⟩ := h
  refine ⟨fun hocc => ?_, fun hknown => ?_, fun hc => ⟨(hn hc).1, ?_⟩⟩
  · have hocc' : occupied ∨ p.willAdd c ∨ A := by
      rcases hocc with hocc | hp' | hA
      · exact .inl hocc
      · exact (hadd hp').elim (fun hp => .inr (.inl hp)) .inl
      · exact .inr (.inr hA)
    exact (hk hocc').imp_right fun hS => hS.imp_left hsub
  · rcases ho hknown with hocc | hp | hO
    · exact .inl hocc
    · -- the nameless channel is never known
      rcases howes hp with hp' | hocc | hc
      · exact .inr (.inl hp')
      · exact .inl hocc
      · exact absurd hknown (hn hc).1
    · exact .inr (.inr hO)
  · rintro (hp' | hS)
    · exact hsub' hp' hc
    · exact (hn hc).2 (.inr hS)

/-- A thread sends the `Sub` it has decided on. -/
theorem Balanced.sendSub {occupied A S O : Prop} {known : Set String} {a : Agent} {d : String}
    (h : Balanced c occupied (c ∈ known) ((Thread.sendingSub a d).willAdd c ∨ A)
      ((Thread.sendingSub a d).willSub c ∨ S) ((Thread.sendingSub a d).owes c ∨ O)) :
    Balanced c occupied (c ∈ (Command.sub d : Command M).onChannels known)
      ((Thread.adding a d).willAdd c ∨ A) ((Thread.adding a d).willSub c ∨ S)
      ((Thread.adding a d).owes c ∨ O) := by
  obtain ⟨hk, ho, hn⟩ := h
  simp only [Thread.willAdd, Thread.willSub, Thread.owes, decide_eq_true_eq, Bool.false_eq_true,
    false_or, Command.onChannels] at hk ho hn ⊢
  constructor <;> grind

/-- A thread adds its agent. -/
theorem Balanced.add {occupied known A S O : Prop} {a : Agent} {d : String}
    (h : Balanced c occupied known ((Thread.adding a d).willAdd c ∨ A)
      ((Thread.adding a d).willSub c ∨ S) ((Thread.adding a d).owes c ∨ O)) :
    Balanced c (occupied ∨ c = d) known (Thread.returned.willAdd c ∨ A)
      (Thread.returned.willSub c ∨ S) (Thread.returned.owes c ∨ O) := by
  obtain ⟨hk, ho, hn⟩ := h
  simp only [Thread.willAdd, Thread.willSub, Thread.owes, decide_eq_true_eq, Bool.false_eq_true,
    false_or] at hk ho hn ⊢
  constructor <;> grind

/-- A thread takes subscribers away and keeps looking at the channels that lose the last one. -/
theorem Balanced.shrink {occupied occupied' known A S O : Prop} {p p' : Thread}
    (h : Balanced c occupied known (p.willAdd c ∨ A) (p.willSub c ∨ S) (p.owes c ∨ O))
    (hof : occupied' → occupied) (hleft : occupied → occupied' ∨ p'.owes c ∨ O)
    (howes : p.owes c → p'.owes c) (hadd : ¬p'.willAdd c) (hsub : ¬p.willSub c)
    (hsub' : ¬p'.willSub c) :
    Balanced c occupied' known (p'.willAdd c ∨ A) (p'.willSub c ∨ S) (p'.owes c ∨ O) := by
  obtain ⟨hk, ho, hn⟩ := h
  constructor <;> grind

/-- A thread sends an `Unsub` while a `Sub` is to follow, or while nobody is on the channel or
about to be added. -/
theorem Balanced.sendUnsub {occupied A S O : Prop} {known : Set String} {d : String}
    {ds : List String}
    (h : Balanced c occupied (c ∈ known) ((Thread.sendingUnsub d ds).willAdd c ∨ A)
      ((Thread.sendingUnsub d ds).willSub c ∨ S) ((Thread.sendingUnsub d ds).owes c ∨ O))
    (hsafe : d = c → ((Thread.sendingUnsub d ds).willSub c ∨ S) ∨ ¬occupied ∧ ¬A) :
    Balanced c occupied (c ∈ (Command.unsub d : Command M).onChannels known)
      ((Thread.checking ds).willAdd c ∨ A) ((Thread.checking ds).willSub c ∨ S)
      ((Thread.checking ds).owes c ∨ O) := by
  obtain ⟨hk, ho, hn⟩ := h
  simp only [Thread.willAdd, Thread.willSub, Thread.owes, decide_eq_true_eq, Bool.false_eq_true,
    false_or, Command.onChannels] at hk ho hn hsafe ⊢
  constructor <;> grind

/-- A thread moves past one call. -/
theorem Agrees.move (h : Agrees link c s) {i : ℕ} {p p' : Thread} {g : Global M}
    (hi : s.threads[i]? = some p) (hsafe : p.SafeNext c s) (hnext : p.next s.child = some (g, p')) :
    Agrees link c { s with child := g, threads := s.threads.set i p' } := by
  obtain ⟨hlinked, hseparate, hb⟩ := h
  suffices hsuff : g.thePubSub.isSome ∧ Balanced c (g.session2channel.Occupied c)
      (c ∈ eventual { s with child := g } link) (∃ q ∈ s.threads.set i p', q.willAdd c)
      (∃ q ∈ s.threads.set i p', q.willSub c) (∃ q ∈ s.threads.set i p', q.owes c) from
    ⟨hsuff.1, hseparate, hsuff.2⟩
  simp only [exists_mem_set_iff_others hi]
  simp only [exists_mem_iff_others hi] at hb
  cases Thread.next_cases hnext with
  | nameless hd =>
    refine ⟨hlinked, hb.silent nofun nofun nofun fun hc => ?_⟩
    exact .inr (.inr (of_decide_eq_true hc ▸ hd))
  | foundEmpty hd _ =>
    exact ⟨hlinked, hb.silent nofun nofun (fun hc => of_decide_eq_true hc ▸ hd) .inl⟩
  | foundOccupied _ hsome =>
    -- no `Sub`: the subscriber that was found is known already
    refine ⟨hlinked, hb.silent (fun hc => .inr ?_) nofun nofun .inl⟩
    exact of_decide_eq_true hc ▸ hsome
  | readItem => exact ⟨hlinked, hb.silent nofun nofun nofun nofun⟩
  | checked => exact ⟨hlinked, hb.silent nofun nofun nofun nofun⟩
  | becameEmpty =>
    -- the thread still owes the `Unsub`
    refine ⟨hlinked, hb.silent nofun nofun nofun fun hc => .inl ?_⟩
    rcases List.mem_cons.mp (of_decide_eq_true hc) with rfl | hc
    · exact decide_eq_true (.inl rfl)
    · exact decide_eq_true (.inr hc)
  | staysOccupied hsome =>
    refine ⟨hlinked, hb.silent nofun nofun nofun fun hc => ?_⟩
    rcases List.mem_cons.mp (of_decide_eq_true hc) with rfl | hc
    · exact .inr (.inl hsome)
    · exact .inl (decide_eq_true hc)
  | sendSub =>
    refine ⟨by simpa [Global.enqueue] using hlinked, ?_⟩
    rw [eventual_enqueue hlinked]
    exact hb.sendSub
  | add =>
    refine ⟨hlinked, ?_⟩
    rw [SessionMap.occupied_add]
    exact hb.add
  | @remove a d =>
    have howes : (Thread.removing a d).owes c → (Thread.checking [d]).owes c := fun hc =>
      decide_eq_true (List.mem_singleton.mpr (of_decide_eq_true hc).symm)
    refine ⟨hlinked, hb.shrink SessionMap.Occupied.of_remove (fun hocc => ?_) howes nofun nofun nofun⟩
    by_cases hcd : c = d
    · exact .inr (.inl (decide_eq_true (List.mem_singleton.mpr hcd)))
    · exact .inl (hocc.remove hcd)
  | @removeItem a ds =>
    refine ⟨hlinked,
      hb.shrink SessionMap.Occupied.of_removeItem (fun hocc => ?_) id nofun nofun nofun⟩
    by_cases hread : c ∈ ds
    · exact .inr (.inl (decide_eq_true hread))
    · by_cases hcm : c ∈ s.child.session2channel.things a
      · -- the agent got the channel after its channels were read
        rcases hsafe hread (Global.mem_channels.mpr hcm) with ⟨b, hb, hba⟩ | ⟨q, hq, howes⟩
        · exact .inl (hocc.removeItem (.inr ⟨b, Global.mem_subscribers.mp hb, hba⟩))
        · have hex : ∃ q ∈ s.threads, q.owes c := ⟨q, hq, howes⟩
          exact .inr ((exists_mem_iff_others hi).mp hex)
      · exact .inl (hocc.removeItem (.inl hcm))
  | sendUnsub =>
    -- the test lies back: only a safe step says that it still holds
    refine ⟨by simpa [Global.enqueue] using hlinked, ?_⟩
    rw [eventual_enqueue hlinked]
    refine hb.sendUnsub fun hdc => (hsafe hdc).imp (exists_mem_iff_others hi).mp fun hempty => ?_
    rw [exists_mem_iff_others hi] at hempty
    exact ⟨SessionMap.not_occupied_iff.mpr hempty.1, fun hA => hempty.2 (.inr hA)⟩

theorem Agrees.step (h : Agrees link c s) {a : Action} (hsafe : Safe c s a)
    (hst : (machine M link).step s a = some t) : Agrees link c t := by
  obtain ⟨call, -, rfl⟩ | ⟨i, p, g, p', rfl, hi, hnext, rfl⟩ | ⟨cmd, cmds, hq, rfl⟩ |
    ⟨call, hne, rfl⟩ := step_cases hst
  · exact h.call call
  · exact h.move hi (hsafe p hi) hnext
  · exact h.deliver hq
  · exact h.elsewhere hne

/-! ### Agreement -/

/-- A server that is linked and has no subscribers yet. The link agent may already have channels
at the parent, which subscribed it to its own key. -/
structure Initial (link : Agent) (s : Upstream M) : Prop where
  child_empty : s.child.session2channel = .empty
  linked : s.child.thePubSub = some []
  idle : s.threads = []
  separate : s.parent.session2channel.Separate link

theorem Initial.agrees (h : Initial link s) (hc : link ∉ s.parent.subscribers c) :
    Agrees link c s := by
  have heventual : s.eventual link = s.parent.delivered link := by simp [eventual, h.linked]
  have hknown : c ∉ s.eventual link := heventual ▸ hc
  refine ⟨h.linked ▸ rfl, h.separate, ?_⟩
  rw [h.child_empty, h.idle]
  constructor <;> simp [hknown]

/-- Once no call is in progress and the parent has processed everything, agreement up to what is
still to be done is agreement. -/
theorem Agrees.of_quiet (h : Agrees link c s) (hreturned : ∀ p ∈ s.threads, p = .returned)
    (hdelivered : s.child.thePubSub = some []) :
    link ∈ s.parent.subscribers c ↔ ∃ a, a ∈ s.child.subscribers c := by
  have heventual : s.eventual link = s.parent.delivered link := by simp [eventual, hdelivered]
  have hnone : ∀ P : Thread → Bool, P .returned = false → ¬∃ p ∈ s.threads, P p = true := by
    rintro P hP ⟨p, hp, hPp⟩
    rw [hreturned p hp, hP] at hPp
    cases hPp
  obtain ⟨hk, ho, -⟩ := h.balanced
  simp only [Global.mem_subscribers]
  change link ∈ s.parent.session2channel.items c ↔ s.child.session2channel.Occupied c
  rw [← Global.mem_subscribers, ← Global.mem_delivered, ← heventual]
  constructor
  · intro hknown
    exact (ho hknown).resolve_right (hnone _ rfl)
  · intro hocc
    exact (hk (.inl hocc)).resolve_right (hnone _ rfl)

/-- **Upstream agreement.** In every run whose steps do no harm to a channel, in every state in
which no call is in progress and the parent has processed all commands: the parent has the
server subscribed to the channel if and only if the channel has a local agent. -/
theorem upstream_agrees {s₀ : Upstream M} (h₀ : Initial link s₀)
    (hc : link ∉ s₀.parent.subscribers c) (hrun : (machine M link).Runs (Safe c) s₀ s)
    (hreturned : ∀ p ∈ s.threads, p = .returned) (hdelivered : s.child.thePubSub = some []) :
    link ∈ s.parent.subscribers c ↔ ∃ a, a ∈ s.child.subscribers c :=
  (hrun.invariant (fun hsafe h hst => h.step hsafe hst) (h₀.agrees hc)).of_quiet hreturned
    hdelivered

/-- A server below a parent that has just accepted the session `link`. -/
def fresh (M : Type*) (link : Agent) : Upstream M where
  child := { thePubSub := some [] }
  parent := ({} : Global M).subscribe link link.hash

theorem initial_fresh (link : Agent) : Initial link (fresh M link) :=
  ⟨rfl, rfl, rfl,
    Global.separate_perform (.subscribe link link.hash) SessionMap.separate_empty fun _ => rfl⟩

/-- Two agents come and go, overlapping without harm. -/
theorem upstream_agrees_two_agents :
    ∃ s, (machine Unit ⟨0, "link"⟩).Runs (Safe "chan") (fresh Unit ⟨0, "link"⟩) s ∧
      (⟨0, "link"⟩ ∈ s.parent.subscribers "chan" ↔ ∃ a, a ∈ s.child.subscribers "chan") := by
  obtain ⟨s, hrun, hreturned, hdelivered⟩ := Machine.Runs.exists_of_run
    (m := machine Unit ⟨0, "link"⟩) (G := Safe "chan") (s := fresh Unit ⟨0, "link"⟩)
    (P := fun s => (∀ p ∈ s.threads, p = .returned) ∧ s.child.thePubSub = some [])
    [.call (.subscribe ⟨1, "a"⟩ "chan"), .call (.subscribe ⟨2, "b"⟩ "chan"), .move 0, .move 1,
      .move 1, .move 0, .move 1, .move 0, .deliver, .deliver,
      .call (.unsubscribeAgent ⟨1, "a"⟩), .move 2, .move 2, .move 2, .move 2] (by decide)
  exact ⟨s, hrun, upstream_agrees (initial_fresh _) (by decide) hrun hreturned hdelivered⟩

/-- The two ways to disagree. A thread that has found the channel empty sends its `Unsub` after
another agent has subscribed: the local subscriber gets nothing from the parent. An agent
subscribes between the reading of its channels and its removal: the parent keeps a channel
that nobody is on. -/
theorem upstream_disagrees :
    (∃ s, (machine Unit ⟨0, "link"⟩).Reaches (fresh Unit ⟨0, "link"⟩) s ∧
      (∀ p ∈ s.threads, p = .returned) ∧ s.child.thePubSub = some [] ∧
        ⟨2, "b"⟩ ∈ s.child.subscribers "chan" ∧ ⟨0, "link"⟩ ∉ s.parent.subscribers "chan") ∧
    ∃ s, (machine Unit ⟨0, "link"⟩).Reaches (fresh Unit ⟨0, "link"⟩) s ∧
      (∀ p ∈ s.threads, p = .returned) ∧ s.child.thePubSub = some [] ∧
        (s.child.subscribers "chan").isEmpty ∧ ⟨0, "link"⟩ ∈ s.parent.subscribers "chan" := by
  constructor
  · exact Machine.Reaches.exists_of_run [.call (.subscribe ⟨1, "a"⟩ "chan"), .move 0, .move 0,
      .move 0, .call (.unsubscribe ⟨1, "a"⟩ "chan"), .move 1, .move 1,
      .call (.subscribe ⟨2, "b"⟩ "chan"), .move 2, .move 2, .move 2, .move 1, .move 1, .deliver,
      .deliver, .deliver] (by decide)
  · exact Machine.Reaches.exists_of_run [.call (.unsubscribeAgent ⟨1, "a"⟩), .move 0,
      .call (.subscribe ⟨1, "a"⟩ "chan"), .move 1, .move 1, .move 1, .move 0, .move 0, .deliver]
      (by decide)

end Upstream

end Gwems
