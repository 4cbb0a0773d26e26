import Gwems.WebContent.ChatWorld

/-!
# Chat lines on their way

A line that a page publishes goes through the messages of the page, the tasks of the server and the
queues of the sessions before it comes in somewhere. `onTheWay` counts how often a line is on its
way to a page that watches certain topics: neither the server, when it runs a message
(`onTheWay_run`), nor its executor, when it runs a task (`onTheWay_execute`), makes a difference.
-/

namespace Gwems

namespace ChatWorld

variable {J : Jackson ChatLine} {w v : ChatWorld} {i : ℕ} {page : ChatPage} {a : Agent}

/-! ### Lines on their way -/

section Tally

variable {α : Type*} {f : α → Option ChatLine} {l : List α} {x : ChatLine} {p q : α} {n : ℕ}

/-- How often a line is among those of a list. -/
def tally (f : α → Option ChatLine) (l : List α) (x : ChatLine) : ℕ := (l.filterMap f).count x

theorem tally_append (l₁ l₂ : List α) : tally f (l₁ ++ l₂) x = tally f l₁ x + tally f l₂ x := by
  rw [tally, List.filterMap_append, List.count_append, tally, tally]

theorem tally_cons (p : α) (l : List α) : tally f (p :: l) x = tally f [p] x + tally f l x :=
  tally_append [p] l

theorem tally_singleton (p : α) : tally f [p] x = (f p).toList.count x := by
  rw [tally]
  cases h : f p <;> simp [h]

theorem tally_eq_zero (h : ∀ p ∈ l, f p = none) : tally f l x = 0 := by
  rw [tally, List.filterMap_eq_nil_iff.mpr h, List.count_nil]

/-- An entry is replaced. -/
theorem tally_set (h : l[n]? = some p) :
    tally f (l.set n q) x + tally f [p] x = tally f l x + tally f [q] x := by
  induction l generalizing n with
  | nil => cases h
  | cons r l ih =>
    cases n with
    | zero =>
      obtain rfl : r = p := Option.some.inj h
      rw [List.set_cons_zero, tally_cons q, tally_cons r l]
      omega
    | succ n =>
      have hl := ih (n := n) h
      rw [List.set_cons_succ, tally_cons r, tally_cons r l]
      omega

end Tally

section Watched

variable (a : Agent) (topics : ChannelNames)

instance (c : String) : Decidable (c ∈ GWEMS.wanted (GWEMS.own a) topics) :=
  inferInstanceAs (Decidable ((c = a.hash ∧ c.length ≠ 0) ∨
    c.length ≠ 0 ∧ ∃ name ∈ topics.object.keys, GWEMS.Denotes name c))

/-- Whether a session with these topics gets what is published under a name. -/
def watched (name : String) : Bool :=
  (accepted (Publish.channel name)).any (· ∈ GWEMS.wanted (GWEMS.own a) topics)

/-- The line of a publication that the session gets. -/
def ofPublished (p : String × ChatLine) : Option ChatLine :=
  if watched a topics p.1 then some p.2 else none

/-- The line of a message to the server that the session gets. -/
def ofMessage (message : PageMessage) : Option ChatLine :=
  message.publish?.bind (ofPublished a topics)

/-- The line of a task that the session gets. -/
def ofTask : Option (Task ChatLine) → Option ChatLine
  | some (.publish c msg _) => if c ∈ GWEMS.wanted (GWEMS.own a) topics then some msg else none
  | some (.handle _ _) | none => none

/-- How often a line is on its way to a page: sent and not run, to be executed, or not come in. -/
def onTheWay (w : ChatWorld) (arrived : ℕ) (x : ChatLine) : ℕ :=
  (w.pages.map fun page => tally (ofMessage a topics) page.sent x).sum +
    tally (ofTask a topics) w.server.tasks x +
    tally (fun e => line? e.2) ((w.server.messageQ a).drop arrived) x

end Watched

variable {topics : ChannelNames} {x : ChatLine} {arrived : ℕ}

/-- A `Subscribe` is no line. -/
theorem tally_socket (messages : List SocketMessage) :
    tally (ofMessage a topics) (messages.map .socket) x = 0 := by
  refine tally_eq_zero fun p hp => ?_
  obtain ⟨message, -, rfl⟩ := List.mem_map.mp hp
  rfl

/-- The lines that are sent are those that are published. -/
theorem tally_published (messages : List PageMessage) :
    tally (ofPublished a topics) (messages.filterMap PageMessage.publish?) x =
      tally (ofMessage a topics) messages x := by
  rw [tally, tally, List.filterMap_filterMap]
  rfl

/-- The server has the tasks and queues it had, and one page may have sent something else. -/
theorem onTheWay_move {q : ChatPage} (hi : w.pages[i]? = some page)
    (hpages : v.pages = w.pages.set i q) (htasks : v.server.tasks = w.server.tasks)
    (hqueue : v.server.messageQ = w.server.messageQ) :
    onTheWay a topics v arrived x + tally (ofMessage a topics) page.sent x =
      onTheWay a topics w arrived x + tally (ofMessage a topics) q.sent x := by
  have hsum := sum_map_set (fun page : ChatPage => tally (ofMessage a topics) page.sent x) hi q
  rw [onTheWay, onTheWay, hpages, htasks, hqueue]
  omega

theorem messageQ_run (b : Agent) (message : PageMessage) :
    (w.server.run b message.message).messageQ = w.server.messageQ := by
  cases message with
  | socket message => rfl
  | publish channel msg => exact (ChatServer.quiet_runPublish w.server channel msg).messageQ

/-- The server runs a message: a line that it publishes has a task. -/
theorem onTheWay_run {b : Agent} {message : PageMessage} {sent : List PageMessage}
    (hi : w.pages[i]? = some page) (hsent : page.sent = message :: sent) :
    onTheWay a topics { w with
      server := w.server.run b message.message
      pages := w.pages.set i { page with sent := sent } } arrived x =
        onTheWay a topics w arrived x := by
  have hsum := sum_map_set (fun page : ChatPage => tally (ofMessage a topics) page.sent x) hi
    { page with sent := sent }
  beta_reduce at hsum
  rw [hsent, tally_cons message sent] at hsum
  -- what becomes of the message
  have htask : tally (ofTask a topics) (w.server.run b message.message).tasks x =
      tally (ofTask a topics) w.server.tasks x + tally (ofMessage a topics) [message] x := by
    cases message with
    | socket message => rfl
    | publish channel msg =>
      change tally _ (w.server.runPublish channel msg).tasks x = _
      rw [ChatServer.runPublish_eq]
      cases hc : accepted (Publish.channel channel) with
      | none =>
        have hnone : ofMessage a topics (.publish channel msg) = none := by
          simp [ofMessage, ofPublished, watched, PageMessage.publish?, hc]
        rw [tally_singleton, hnone, Option.toList_none, List.count_nil, Nat.add_zero]
      | some c =>
        rw [tally_append]
        have hsame : ofTask a topics (some (.publish c msg none)) =
            ofMessage a topics (.publish channel msg) := by
          simp [ofMessage, ofPublished, ofTask, watched, PageMessage.publish?, hc]
        rw [tally_singleton, tally_singleton, hsame]
  rw [onTheWay, onTheWay, htask, messageQ_run]
  dsimp only at hsum ⊢
  omega

/-- An agent of a delivery set gets one message. -/
theorem foldl_put {e : ℕ × Queued ChatLine} {agents : List Agent} (h : agents.Nodup)
    (messageQ : Agent → List (ℕ × Queued ChatLine)) :
    (agents.foldl (fun messageQ agent =>
        Function.update messageQ agent (messageQ agent ++ [e])) messageQ) a =
      messageQ a ++ if a ∈ agents then [e] else [] := by
  induction agents generalizing messageQ with
  | nil => simp
  | cons b agents ih =>
    obtain ⟨hb, hagents⟩ := List.nodup_cons.mp h
    rw [List.foldl_cons, ih hagents, Function.update_apply]
    by_cases hab : a = b
    · subst hab
      simp [hb]
    · simp [hab]

theorem messageQ_execute {n : ℕ} {c : String} {msg : ChatLine}
    (hpubsub : w.server.global.isPubSub = false) :
    (w.server.execute J n (.publish c msg none)).messageQ a = w.server.messageQ a ++
      if a ∈ w.server.global.subscribers c then [(n, .wrapper c msg)] else [] := by
  rw [ChatServer.execute, ChatServer.deliveries_publish, ChatServer.queued, hpubsub]
  exact foldl_put (KSet.nodup _) _

/-- A task puts its line on the queues of the delivery set. -/
theorem onTheWay_execute {n : ℕ} {c : String} {msg : ChatLine}
    (hn : w.server.tasks[n]? = some (some (.publish c msg none)))
    (hpubsub : w.server.global.isPubSub = false)
    (hmem : a ∈ w.server.global.subscribers c ↔ c ∈ GWEMS.wanted (GWEMS.own a) topics)
    (harrived : arrived ≤ (w.server.messageQ a).length) :
    onTheWay a topics { w with server := w.server.execute J n (.publish c msg none) } arrived x =
      onTheWay a topics w arrived x := by
  have htask := tally_set (f := ofTask a topics) (x := x) (q := none) hn
  have hnone : tally (ofTask a topics) [none] x = 0 := tally_singleton none
  have hqueue : (w.server.execute J n (.publish c msg none)).messageQ a = w.server.messageQ a ++
      if c ∈ GWEMS.wanted (GWEMS.own a) topics then [(n, .wrapper c msg)] else [] := by
    rw [messageQ_execute hpubsub]
    simp only [hmem]
  have hline : tally (fun e => line? e.2) (if c ∈ GWEMS.wanted (GWEMS.own a) topics then
      [(n, Queued.wrapper c msg)] else []) x =
        tally (ofTask a topics) [some (.publish c msg none)] x := by
    rw [tally_singleton, ofTask]
    split
    next => rw [tally_singleton, line?]
    next => rfl
  rw [onTheWay, onTheWay, hqueue, List.drop_append_of_le_length harrived, tally_append, hline]
  change (w.pages.map _).sum + tally _ (w.server.tasks.set n none) x + _ = _
  omega

end ChatWorld

end Gwems
