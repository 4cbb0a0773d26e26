import Gwems.Servers.Global

/-!
# The link of a server to its parent

A `GwemsPubSub` carries the commands of a server to its parent, where the session agent of
the link runs them: `d.Sub` and `d.Unsub` subscribe and unsubscribe that agent. For the
server below, the parent is the *set of channels* its link agent gets messages on, and a
command is a map on such sets; the parent's table refines this abstract view as long as no
other agent of the parent has the link agent's key (`Separate`).
-/

namespace Gwems

variable {M : Type*}

/-- `PubSub.dummyChannel`, the channel of the agent that a linked server subscribes itself. -/
def dummyChannel : String := "AHUAp4xu9FqRobj8zwn2vBI6Anag1t8Z5z6SWjn8_neverUseThisChannel"

/-- What `d.Sub.run`, `d.Unsub.run` and `d.Pub.run` do to the subscriptions of the server on
which the session `agent` runs them. -/
def Global.receive (g : Global M) (agent : Agent) : Command M → Global M
  | .sub c => g.subscribe agent c
  | .unsub channel => g.unsubscribe agent channel
  | .pub _ _ => g

/-- The abstract view of a command: its effect on the set of channels of the link. -/
def Command.onChannels (s : Set String) : Command M → Set String
  | .sub c => if c.length = 0 then s else insert c s
  | .unsub channel => s \ {channel}
  | .pub _ _ => s

/-- The effect of a sequence of commands. -/
def Command.afterAll (s : Set String) (cmds : List (Command M)) : Set String :=
  cmds.foldl Command.onChannels s

@[simp] theorem Command.afterAll_nil {s : Set String} :
    Command.afterAll s ([] : List (Command M)) = s := rfl

@[simp] theorem Command.afterAll_cons {s : Set String} {cmd : Command M}
    {cmds : List (Command M)} :
    Command.afterAll s (cmd :: cmds) = Command.afterAll (cmd.onChannels s) cmds := rfl

@[simp] theorem Command.afterAll_concat {s : Set String} {cmd : Command M}
    {cmds : List (Command M)} :
    Command.afterAll s (cmds ++ [cmd]) = cmd.onChannels (Command.afterAll s cmds) :=
  List.foldl_concat ..

namespace Global

variable {g : Global M} {agent a : Agent} {c d : String}

/-- The channels on which an agent gets messages. -/
def delivered (g : Global M) (agent : Agent) : Set String := {c | agent ∈ g.subscribers c}

@[simp] theorem mem_delivered : c ∈ g.delivered agent ↔ agent ∈ g.subscribers c := Iff.rfl

theorem mem_subscribers_subscribe (hc : c.length ≠ 0) :
    a ∈ (g.subscribe agent c).subscribers d ↔
      a ∈ g.subscribers d ∨ d = c ∧ a = agent ∧ ∀ x ∈ g.subscribers c, x.hash ≠ agent.hash := by
  simp only [mem_subscribers, subscribe_session2channel hc, SessionMap.mem_items_add]

theorem mem_subscribers_unsubscribe :
    a ∈ (g.unsubscribe agent c).subscribers d ↔
      a ∈ g.subscribers d ∧ ¬(d = c ∧ a.hash = agent.hash) := by
  simp only [mem_subscribers, unsubscribe_session2channel, SessionMap.mem_items_remove]

theorem mem_subscribers_unsubscribeAgent :
    a ∈ (g.unsubscribeAgent agent).subscribers d ↔
      a ∈ g.subscribers d ∧ ¬(a.hash = agent.hash ∧ d ∈ g.channels agent) := by
  simp only [mem_subscribers, mem_channels, unsubscribeAgent_session2channel,
    SessionMap.mem_items_removeItem]

/-- A call about an agent with another key does not change the channels of an agent. -/
theorem delivered_perform_of_ne {call : SubscriptionCall} (h : call.agent.hash ≠ a.hash) :
    (g.perform call).delivered a = g.delivered a := by
  ext d
  rw [mem_delivered, mem_delivered]
  cases call with
  | subscribe b c =>
    by_cases hc : c.length = 0
    · rw [perform, subscribe_of_length_eq_zero hc]
    · rw [perform, mem_subscribers_subscribe hc]
      exact or_iff_left fun hab => h (hab.2.1 ▸ rfl)
  | unsubscribe b c =>
    rw [perform, mem_subscribers_unsubscribe]
    exact and_iff_left fun hab => h hab.2.symm
  | unsubscribeAgent b =>
    rw [perform, mem_subscribers_unsubscribeAgent]
    exact and_iff_left fun hab => h hab.1.symm

/-- A server's commands keep its link agent separate at the parent. -/
theorem separate_receive (h : g.session2channel.Separate agent) (cmd : Command M) :
    (g.receive agent cmd).session2channel.Separate agent := by
  cases cmd with
  | sub c => exact separate_perform (.subscribe agent c) h fun _ => rfl
  | unsub c => exact separate_perform (.unsubscribe agent c) h fun _ => rfl
  | pub c m => exact h

/-- **The parent's table refines the abstract view.** A command does to the channels of the
link agent what `Command.onChannels` says. -/
theorem delivered_receive (h : g.session2channel.Separate agent) (cmd : Command M) :
    (g.receive agent cmd).delivered agent = cmd.onChannels (g.delivered agent) := by
  ext d
  cases cmd with
  | sub c =>
    by_cases hc : c.length = 0
    · simp [receive, Command.onChannels, subscribe_of_length_eq_zero hc, hc]
    · simp only [receive, Command.onChannels, hc, if_false, mem_delivered, Set.mem_insert_iff]
      constructor
      · rw [mem_subscribers_subscribe hc]
        rintro (hd | ⟨rfl, -, -⟩)
        · exact .inr hd
        · exact .inl rfl
      · rintro (rfl | hd)
        · rw [mem_subscribers, subscribe_session2channel hc]
          exact h.mem_items_add_self d
        · exact (mem_subscribers_subscribe hc).mpr (.inl hd)
  | unsub c =>
    simp [receive, Command.onChannels, mem_subscribers_unsubscribe]
  | pub c m => rfl

end Global

end Gwems
