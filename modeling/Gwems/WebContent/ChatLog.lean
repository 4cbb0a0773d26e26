import Gwems.WebContent.ChatTraffic

/-!
# What a chat page sees

`seen_iff_published` is about whole conversations: between two states at rest of any run, the log of
an open page that keeps its topics becomes what `handleIncomingMessage` makes of it with the lines
that any page has published on what the page watches, each as often as it was published, and with no
other line. The invariant is `Carried`: each line has come in or is on its way.
-/

namespace Gwems

namespace ChatWorld

variable {dom : Dom} {J : Jackson ChatLine} {w v : ChatWorld} {i j : ℕ} {page : ChatPage}
  {a : Agent} {action : Action} {topics : ChannelNames} {x : ChatLine}

/-! ### What a page sees -/

/-- The server is no PubSub server, and its tasks are those of publications. -/
structure Local (w : ChatWorld) : Prop where
  isPubSub : w.server.global.isPubSub = false
  tasks : ∀ task, some task ∈ w.server.tasks → ∃ c msg, task = .publish c msg none

theorem local_start (thePubSub : Option (List (Command ChatLine))) : (start thePubSub).Local where
  isPubSub := rfl
  tasks task h := by cases h

/-- The step lemma. -/
theorem Local.step (h : w.Local) (hst : (machine dom J).step w action = some v) : v.Local := by
  cases step_cases hst with
  | accept => exact ⟨(Global.perform_isPubSub (.subscribe _ _)).trans h.isPubSub, h.tasks⟩
  | @run i page agent message sent hi hagent hsent =>
    cases message with
    | socket message =>
      refine ⟨?_, h.tasks⟩
      change (GWEMS.run agent w.server.global message).isPubSub = false
      rw [GWEMS.run]
      cases message.call agent with
      | none => exact h.isPubSub
      | some call => exact (Global.perform_isPubSub call).trans h.isPubSub
    | publish channel msg =>
      have hrun := ChatServer.runPublish_eq w.server channel msg
      refine ⟨(ChatServer.quiet_runPublish w.server channel msg).isPubSub.trans h.isPubSub, ?_⟩
      change ∀ task, some task ∈ (w.server.runPublish channel msg).tasks → _
      rw [hrun]
      split
      next c _ =>
        intro task htask
        rcases List.mem_append.mp htask with htask | htask
        · exact h.tasks task htask
        · exact ⟨c, msg, Option.some.inj (List.mem_singleton.mp htask)⟩
      next => exact h.tasks
  | execute =>
    refine ⟨h.isPubSub, fun task htask => ?_⟩
    rcases List.mem_or_eq_of_mem_set htask with htask | htask
    · exact h.tasks task htask
    · cases htask
  | expire => exact ⟨(Global.perform_isPubSub (.unsubscribeAgent _)).trans h.isPubSub, h.tasks⟩
  | load => exact ⟨h.isPubSub, h.tasks⟩
  | handleOpen => exact ⟨h.isPubSub, h.tasks⟩
  | subscribe => exact ⟨h.isPubSub, h.tasks⟩
  | send => exact ⟨h.isPubSub, h.tasks⟩
  | incoming => exact ⟨h.isPubSub, h.tasks⟩
  | close => exact ⟨h.isPubSub, h.tasks⟩

/-- The page goes on watching what it watches. -/
def Watches (i : ℕ) : Action → Prop
  | .subscribe j _ | .close j => j ≠ i
  | _ => True

/-- The server has run what the pages have sent, its tasks have run, and the lines have come in. -/
structure AtRest (w : ChatWorld) : Prop where
  sent : ∀ page ∈ w.pages, page.sent = []
  tasks : ∀ task ∈ w.server.tasks, task = none
  arrived : ∀ page ∈ w.pages, page.readyState = .opened → ∀ a ∈ page.agent,
    (w.server.messageQ a).length = page.arrived

instance (w : ChatWorld) : Decidable w.AtRest :=
  decidable_of_iff ((∀ page ∈ w.pages, page.sent.isEmpty = true) ∧
      (∀ task ∈ w.server.tasks, task.isNone = true) ∧
      ∀ page ∈ w.pages, page.readyState = .opened → ∀ a ∈ page.agent,
        (w.server.messageQ a).length = page.arrived)
    ⟨fun h => ⟨fun page hpage => List.isEmpty_iff.mp (h.1 page hpage),
      fun task htask => Option.isNone_iff_eq_none.mp (h.2.1 task htask), h.2.2⟩,
      fun h => ⟨fun page hpage => List.isEmpty_iff.mpr (h.sent page hpage),
        fun task htask => Option.isNone_iff_eq_none.mpr (h.tasks task htask), h.arrived⟩⟩

instance (i : ℕ) : DecidablePred (Watches i)
  | .subscribe _ _ | .close _ => inferInstanceAs (Decidable (_ ≠ _))
  | .load | .accept _ _ | .handleOpen _ | .send _ _ _ | .run _ | .execute _ | .incoming _
  | .expire _ => inferInstanceAs (Decidable True)

/-- Page `i`, which was `first`, is open and goes on watching `topics`. Each line of `new`, what has
been published since, has come in or is on its way, as often, and no other line has come in. -/
structure Carried (dom : Dom) (i : ℕ) (a : Agent) (topics : ChannelNames)
    (published : List (String × ChatLine)) (first page : ChatPage)
    (new : List (String × ChatLine)) (w : ChatWorld) : Prop where
  inStep : w.InStep
  isLocal : w.Local
  hi : w.pages[i]? = some page
  opened : page.readyState = .opened
  agent : page.agent = some a
  watches : page.ourTopics = topics
  quiet : page.sent.filterMap PageMessage.socket? = []
  arrived : page.arrived ≤ (w.server.messageQ a).length
  published : w.published = published ++ new
  shown : ∃ lines : List ChatLine,
    page.log = (lines.foldl (ChatPage.handleIncomingMessage dom) first).log ∧
      ∀ x, lines.count x + onTheWay a topics w page.arrived x = tally (ofPublished a topics) new x

section Carried

variable {published new : List (String × ChatLine)} {first : ChatPage}

/-- The page itself, after a page has moved. -/
structure Keeps (p q : ChatPage) : Prop where
  readyState : q.readyState = p.readyState
  agent : q.agent = p.agent
  ourTopics : q.ourTopics = p.ourTopics
  quiet : q.sent.filterMap PageMessage.socket? = p.sent.filterMap PageMessage.socket?
  arrived : q.arrived = p.arrived
  log : q.log = p.log

/-- A page moves, and sends the lines that are published. -/
theorem Carried.move (h : Carried dom i a topics published first page new w) (hv : v.InStep)
    (hlocal : v.Local) {p q : ChatPage} {more : List (String × ChatLine)}
    (hj : w.pages[j]? = some p) (hpages : v.pages = w.pages.set j q)
    (htasks : v.server.tasks = w.server.tasks) (hqueue : v.server.messageQ = w.server.messageQ)
    (hpublished : v.published = w.published ++ more)
    (hsent : ∀ x, tally (ofMessage a topics) q.sent x =
      tally (ofMessage a topics) p.sent x + tally (ofPublished a topics) more x)
    (hkeeps : j = i → Keeps p q) :
    ∃ page', Carried dom i a topics published first page' (new ++ more) v := by
  have hpublished' : v.published = published ++ (new ++ more) := by
    rw [hpublished, h.published, List.append_assoc]
  obtain ⟨lines, hlog, hcount⟩ := h.shown
  have hcount' : ∀ x, lines.count x + onTheWay a topics v page.arrived x =
      tally (ofPublished a topics) (new ++ more) x := by
    intro x
    have hmove : onTheWay a topics v page.arrived x + _ = onTheWay a topics w page.arrived x + _ :=
      onTheWay_move hj hpages htasks hqueue
    have := hcount x
    have := hsent x
    rw [tally_append]
    omega
  have harrived : page.arrived ≤ (v.server.messageQ a).length := by
    rw [hqueue]
    exact h.arrived
  by_cases hji : j = i
  · subst hji
    obtain rfl : page = p := Option.some.inj (h.hi.symm.trans hj)
    obtain ⟨hstate, hagent, htopics, hquiet, harr, hsame⟩ := hkeeps rfl
    refine ⟨q, hv, hlocal, ?_, hstate.trans h.opened, hagent.trans h.agent,
      htopics.trans h.watches, hquiet.trans h.quiet, harr ▸ harrived, hpublished', lines,
      hsame.trans hlog, ?_⟩
    · rw [hpages, List.getElem?_set_self (List.getElem?_eq_some_iff.mp hj).1]
    · rw [harr]
      exact hcount'
  · refine ⟨page, hv, hlocal, ?_, h.opened, h.agent, h.watches, h.quiet, harrived, hpublished',
      lines, hlog, hcount'⟩
    rw [hpages, List.getElem?_set_ne hji, h.hi]

/-- A page moves, and publishes nothing. -/
theorem Carried.move_quiet (h : Carried dom i a topics published first page new w) (hv : v.InStep)
    (hlocal : v.Local) {p q : ChatPage} (hj : w.pages[j]? = some p)
    (hpages : v.pages = w.pages.set j q) (hserver : v.server = w.server)
    (hpublished : v.published = w.published)
    (hsent : ∀ x, tally (ofMessage a topics) q.sent x = tally (ofMessage a topics) p.sent x)
    (hkeeps : j = i → Keeps p q) :
    ∃ page', Carried dom i a topics published first page' new v := by
  have hmove : ∃ page', Carried dom i a topics published first page' (new ++ []) v :=
    h.move hv hlocal hj hpages (hserver ▸ rfl) (hserver ▸ rfl)
      (hpublished.trans (List.append_nil _).symm) hsent hkeeps
  rwa [List.append_nil] at hmove

/-- What the page watches is in the delivery sets. -/
theorem Carried.mem_subscribers (h : Carried dom i a topics published first page new w)
    (c : String) :
    a ∈ w.server.global.subscribers c ↔ c ∈ GWEMS.wanted (GWEMS.own a) topics := by
  have htold := (h.inStep.pages page (List.mem_of_getElem? h.hi)).told (by simp [h.opened]) a
    h.agent c
  rw [ChatPage.pending_of_not_connecting (by simp [h.opened]), h.quiet, h.watches] at htold
  have hsep := h.inStep.tidy.separate a
    (h.inStep.tidy.own (h.inStep.agents i page h.hi a h.agent).1)
  rw [Global.mem_subscribers, ← hsep.converse, ← Global.mem_channels]
  exact htold

/-- What `handleSendText` does to a page. -/
theorem handleSendText_cases (page : ChatPage) (theAlwaysTags str : String) :
    ∃ messages : List PageMessage, (∀ message ∈ messages, message.socket? = none) ∧
      page.handleSendText theAlwaysTags str = { page with sent := page.sent ++ messages } := by
  have hnone : page = { page with sent := page.sent ++ [] } := by rw [List.append_nil]
  rw [ChatPage.handleSendText]
  split
  next => exact ⟨[], by simp, hnone⟩
  next =>
    rw [ChatPage.send]
    split
    next =>
      refine ⟨_, fun message hmessage => ?_, rfl⟩
      obtain ⟨key, -, rfl⟩ := List.mem_map.mp hmessage
      rfl
    next => exact ⟨[], by simp, hnone⟩

/-- What is sent to the server about subscriptions is no line. -/
theorem tally_send_socket (page : ChatPage) (messages : List SocketMessage) (x : ChatLine) :
    tally (ofMessage a topics) (page.send (messages.map .socket)).sent x =
      tally (ofMessage a topics) page.sent x := by
  rw [ChatPage.send]
  split
  next =>
    rw [tally_append, tally_socket]
    exact Nat.add_zero _
  next => rfl

/-- A page that is loaded has sent nothing. -/
theorem Carried.load (h : Carried dom i a topics published first page new w)
    (hv : InStep { w with pages := w.pages ++ [.load dom] }) :
    Carried dom i a topics published first page new
      { w with pages := w.pages ++ [.load dom] } := by
  refine ⟨hv, ⟨h.isLocal.isPubSub, h.isLocal.tasks⟩, ?_, h.opened, h.agent, h.watches, h.quiet,
    h.arrived, h.published, ?_⟩
  · exact (List.getElem?_append_left (List.getElem?_eq_some_iff.mp h.hi).1).trans h.hi
  · obtain ⟨lines, hlog, hcount⟩ := h.shown
    refine ⟨lines, hlog, fun x => ?_⟩
    rw [← hcount x, onTheWay, onTheWay, List.map_append, List.sum_append]
    rfl

/-- A page that is not open yet is another one. -/
theorem Carried.ne_of_connecting (h : Carried dom i a topics published first page new w)
    {p : ChatPage} (hj : w.pages[j]? = some p) (hstate : p.readyState = .connecting) : j ≠ i := by
  rintro rfl
  rw [Option.some.inj (hj.symm.trans h.hi), h.opened] at hstate
  cases hstate

/-- A session that is made has an empty queue. -/
theorem Carried.accept (h : Carried dom i a topics published first page new w) {p : ChatPage}
    {key : String} (hv : InStep { w with
      server := w.server.newSession key
      pages := w.pages.set j { p with agent := some ⟨w.server.sessions.length, key⟩ } })
    (hlocal : Local { w with
      server := w.server.newSession key
      pages := w.pages.set j { p with agent := some ⟨w.server.sessions.length, key⟩ } })
    (hj : w.pages[j]? = some p) (hstate : p.readyState = .connecting) :
    ∃ page', Carried dom i a topics published first page' new { w with
      server := w.server.newSession key
      pages := w.pages.set j { p with agent := some ⟨w.server.sessions.length, key⟩ } } := by
  have hmove : ∃ page', Carried dom i a topics published first page' (new ++ []) { w with
      server := w.server.newSession key
      pages := w.pages.set j { p with agent := some ⟨w.server.sessions.length, key⟩ } } :=
    h.move hv hlocal hj rfl rfl rfl (List.append_nil _).symm (fun _ => rfl)
      fun hji => absurd hji (h.ne_of_connecting hj hstate)
  rwa [List.append_nil] at hmove

/-- A text is sent, and published. -/
theorem Carried.send (h : Carried dom i a topics published first page new w) {p : ChatPage}
    {setList message : String} (hj : w.pages[j]? = some p)
    (hv : InStep { w with
      pages := w.pages.set j (p.handleSendText setList message)
      published := w.published ++ ((p.handleSendText setList message).sent.drop
        p.sent.length).filterMap PageMessage.publish? }) :
    ∃ page' new', Carried dom i a topics published first page' new' { w with
      pages := w.pages.set j (p.handleSendText setList message)
      published := w.published ++ ((p.handleSendText setList message).sent.drop
        p.sent.length).filterMap PageMessage.publish? } := by
  obtain ⟨messages, hmessages, heq⟩ := handleSendText_cases p setList message
  rw [heq] at hv ⊢
  have hdrop : (p.sent ++ messages).drop p.sent.length = messages := List.drop_left
  obtain ⟨page', h'⟩ := h.move hv ⟨h.isLocal.isPubSub, h.isLocal.tasks⟩ hj rfl rfl rfl
    (by rw [hdrop]) (fun x => by rw [tally_append, tally_published]) fun _ => by
      refine ⟨rfl, rfl, rfl, ?_, rfl, rfl⟩
      rw [List.filterMap_append, List.filterMap_eq_nil_iff.mpr hmessages, List.append_nil]
  exact ⟨page', _, h'⟩

/-- The server runs a message of a page. -/
theorem Carried.run (h : Carried dom i a topics published first page new w) {p : ChatPage}
    {b : Agent} {message : PageMessage} {sent : List PageMessage}
    (hj : w.pages[j]? = some p) (hsent : p.sent = message :: sent)
    (hv : InStep { w with
      server := w.server.run b message.message
      pages := w.pages.set j { p with sent := sent } })
    (hlocal : Local { w with
      server := w.server.run b message.message
      pages := w.pages.set j { p with sent := sent } }) :
    ∃ page', Carried dom i a topics published first page' new { w with
      server := w.server.run b message.message
      pages := w.pages.set j { p with sent := sent } } := by
  have harrived : page.arrived ≤ ((w.server.run b message.message).messageQ a).length := by
    rw [messageQ_run]
    exact h.arrived
  obtain ⟨lines, hlog, hcount⟩ := h.shown
  have hcount' : ∀ x, lines.count x + onTheWay a topics { w with
      server := w.server.run b message.message
      pages := w.pages.set j { p with sent := sent } } page.arrived x =
        tally (ofPublished a topics) new x := fun x => by
    rw [onTheWay_run hj hsent]
    exact hcount x
  by_cases hji : j = i
  · subst hji
    obtain rfl : page = p := Option.some.inj (h.hi.symm.trans hj)
    refine ⟨{ page with sent := sent }, hv, hlocal,
      List.getElem?_set_self (List.getElem?_eq_some_iff.mp hj).1, h.opened, h.agent, h.watches,
      ?_, harrived, h.published, lines, hlog, hcount'⟩
    have hquiet := h.quiet
    rw [hsent, List.filterMap_eq_nil_iff, List.forall_mem_cons] at hquiet
    exact List.filterMap_eq_nil_iff.mpr hquiet.2
  · exact ⟨page, hv, hlocal, (List.getElem?_set_ne hji).trans h.hi, h.opened, h.agent,
      h.watches, h.quiet, harrived, h.published, lines, hlog, hcount'⟩

/-- The executor runs a task. -/
theorem Carried.execute (h : Carried dom i a topics published first page new w) {n : ℕ}
    {task : Task ChatLine} (hn : w.server.tasks[n]? = some (some task))
    (hv : InStep { w with server := w.server.execute J n task })
    (hlocal : Local { w with server := w.server.execute J n task }) :
    Carried dom i a topics published first page new
      { w with server := w.server.execute J n task } := by
  obtain ⟨c, msg, rfl⟩ := h.isLocal.tasks task (List.mem_of_getElem? hn)
  obtain ⟨lines, hlog, hcount⟩ := h.shown
  refine ⟨hv, hlocal, h.hi, h.opened, h.agent, h.watches, h.quiet, ?_, h.published, lines, hlog,
    fun x => ?_⟩
  · change page.arrived ≤ ((w.server.execute J n (.publish c msg none)).messageQ a).length
    rw [messageQ_execute h.isLocal.isPubSub, List.length_append]
    exact h.arrived.trans (Nat.le_add_right _ _)
  · rw [onTheWay_execute hn h.isLocal.isPubSub (h.mem_subscribers c) h.arrived]
    exact hcount x

/-- A line comes in: it leaves the queue and goes into the log. -/
theorem Carried.incoming (h : Carried dom i a topics published first page new w) {p : ChatPage}
    {b : Agent} {queued : ℕ × Queued ChatLine} {obj : ChatLine} (hj : w.pages[j]? = some p)
    (hb : b ∈ p.agent) (hqueued : (w.server.messageQ b)[p.arrived]? = some queued)
    (hobj : line? queued.2 = some obj)
    (hv : InStep { w with
      pages := w.pages.set j
        ({ p with arrived := p.arrived + 1 }.handleIncomingMessage dom obj) }) :
    ∃ page', Carried dom i a topics published first page' new { w with
      pages := w.pages.set j
        ({ p with arrived := p.arrived + 1 }.handleIncomingMessage dom obj) } := by
  rw [ChatPage.handleIncomingMessage_eq] at hv ⊢
  have hlocal : w.Local := h.isLocal
  by_cases hji : j = i
  · subst hji
    obtain rfl : page = p := Option.some.inj (h.hi.symm.trans hj)
    obtain rfl : a = b := Option.some.inj (h.agent.symm.trans hb)
    obtain ⟨hlt, hget⟩ := List.getElem?_eq_some_iff.mp hqueued
    obtain ⟨lines, hlog, hcount⟩ := h.shown
    set page' : ChatPage := { page with
      arrived := page.arrived + 1
      log := ({ page with arrived := page.arrived + 1 }.handleIncomingMessage dom obj).log }
    refine ⟨page', hv, ⟨hlocal.isPubSub, hlocal.tasks⟩,
      List.getElem?_set_self (List.getElem?_eq_some_iff.mp hj).1, h.opened, h.agent, h.watches,
      h.quiet, hlt, h.published, lines ++ [obj], ?_, fun x => ?_⟩
    · have hsame : ({ page with arrived := page.arrived + 1 } : ChatPage).log =
          (lines.foldl (ChatPage.handleIncomingMessage dom) first).log := hlog
      rw [List.foldl_append]
      exact ChatPage.log_handleIncomingMessage dom hsame obj
    · have hmove : ∀ arrived, onTheWay a topics { w with pages := w.pages.set j page' } arrived x =
          onTheWay a topics w arrived x := by
        intro arrived
        have hmove : onTheWay a topics { w with pages := w.pages.set j page' } arrived x +
            tally _ page.sent x = onTheWay a topics w arrived x + tally _ page'.sent x :=
          onTheWay_move hj rfl rfl rfl
        exact Nat.add_right_cancel hmove
      have hnext : onTheWay a topics w page.arrived x =
          onTheWay a topics w (page.arrived + 1) x + [obj].count x := by
        rw [onTheWay, onTheWay, List.drop_eq_getElem_cons hlt, hget, tally_cons, tally_singleton,
          hobj, Option.toList_some]
        omega
      have := hcount x
      rw [hmove, List.count_append]
      change lines.count x + [obj].count x + onTheWay a topics w (page.arrived + 1) x = _
      omega
  · exact h.move_quiet hv ⟨hlocal.isPubSub, hlocal.tasks⟩ hj rfl rfl rfl (fun _ => rfl)
      fun h => absurd h hji

/-- The step lemma. -/
theorem Carried.step (h : Carried dom i a topics published first page new w)
    (hG : Careful w action ∧ Watches i action) (hst : (machine dom J).step w action = some v) :
    ∃ page' new', Carried dom i a topics published first page' new' v := by
  have hv := h.inStep.step hG.1 hst
  have hlocal := h.isLocal.step hst
  cases step_cases hst with
  | load => exact ⟨page, new, h.load hv⟩
  | accept hj hstate =>
    obtain ⟨page', h'⟩ := h.accept hv hlocal hj hstate
    exact ⟨page', new, h'⟩
  | @handleOpen j p hj hstate =>
    obtain ⟨page', h'⟩ := h.move_quiet hv hlocal hj rfl rfl rfl (tally_send_socket
      { p with readyState := .opened } [.subscribe "#TimeEveryMinute", .subscribe "#mom"])
      fun hji => absurd hji (h.ne_of_connecting hj hstate)
    exact ⟨page', new, h'⟩
  | @subscribe j subscriptionList p hj =>
    obtain ⟨log, heq⟩ := ChatPage.handleSubTags_eq dom p subscriptionList
    rw [heq] at hv hlocal ⊢
    obtain ⟨page', h'⟩ := h.move_quiet hv hlocal hj rfl rfl rfl (tally_send_socket p _)
      fun hji => absurd hji hG.2
    exact ⟨page', new, h'⟩
  | send hj => exact h.send hj hv
  | run hj _ hsent =>
    obtain ⟨page', h'⟩ := h.run hj hsent hv hlocal
    exact ⟨page', new, h'⟩
  | execute hn => exact ⟨page, new, h.execute hn hv hlocal⟩
  | incoming hj hb _ hqueued hobj =>
    obtain ⟨page', h'⟩ := h.incoming hj hb hqueued hobj hv
    exact ⟨page', new, h'⟩
  | close hj =>
    obtain ⟨page', h'⟩ := h.move_quiet hv hlocal hj rfl rfl rfl (fun _ => rfl)
      fun hji => absurd hji hG.2
    exact ⟨page', new, h'⟩
  | expire => exact ⟨page, new, hv, hlocal, h.hi, h.opened, h.agent, h.watches, h.quiet, h.arrived,
      h.published, h.shown⟩

/-- At rest no line is on its way. -/
theorem AtRest.onTheWay_eq_zero (h : w.AtRest) (hi : w.pages[i]? = some page)
    (hopen : page.readyState = .opened) (ha : page.agent = some a) (x : ChatLine) :
    onTheWay a topics w page.arrived x = 0 := by
  have hpages : (w.pages.map fun page => tally (ofMessage a topics) page.sent x).sum = 0 := by
    refine List.sum_eq_zero fun n hn => ?_
    obtain ⟨page, hpage, rfl⟩ := List.mem_map.mp hn
    rw [h.sent page hpage]
    rfl
  have htasks : tally (ofTask a topics) w.server.tasks x = 0 := tally_eq_zero fun task htask => by
    rw [h.tasks task htask]
    rfl
  rw [onTheWay, hpages, htasks, ← h.arrived page (List.mem_of_getElem? hi) hopen a ha,
    List.drop_length]
  rfl

theorem filterMap_ofPublished (a : Agent) (topics : ChannelNames)
    (new : List (String × ChatLine)) : new.filterMap (ofPublished a topics) =
      (new.filter fun p => watched a topics p.1).map Prod.snd := by
  induction new with
  | nil => rfl
  | cons p new ih =>
    rw [List.filterMap_cons, List.filter_cons, ofPublished, ih]
    split <;> split <;> simp_all

end Carried

/-- **A page sees what is published on what it watches.** Between two states at rest of any run, in
which any pages come and go, change their lists and send texts, the log of an open page that keeps
its list becomes what `handleIncomingMessage` makes of it with each line that has been published on
a channel of its `ourTopics`, by whatever page, as often as it has been published there, and with no
other line. -/
theorem seen_iff_published {thePubSub : Option (List (Command ChatLine))}
    (hw : (machine dom J).Runs Careful (start thePubSub) w) (hrest : w.AtRest)
    (hi : w.pages[i]? = some page) (hopen : page.readyState = .opened)
    (h : (machine dom J).Runs (fun w action => Careful w action ∧ Watches i action) w v)
    (hrest' : v.AtRest) : ∃ a page' new, ∃ lines : List ChatLine,
      page.agent = some a ∧ v.pages[i]? = some page' ∧ v.published = w.published ++ new ∧
      lines.Perm ((new.filter fun p => watched a page.ourTopics p.1).map Prod.snd) ∧
      page'.log = (lines.foldl (ChatPage.handleIncomingMessage dom) page).log := by
  have hstep : w.InStep := hw.invariant (fun hc h hst => h.step hc hst) (inStep_start thePubSub)
  have hlocal : w.Local :=
    hw.invariant (I := Local) (fun _ h hst => h.step hst) (local_start thePubSub)
  have hmem := List.mem_of_getElem? hi
  obtain ⟨a, ha⟩ := Option.ne_none_iff_exists'.mp ((hstep.pages page hmem).session hopen)
  -- at first nothing is new
  have hfirst : Carried dom i a page.ourTopics w.published page page [] w := by
    refine ⟨hstep, hlocal, hi, hopen, ha, rfl, ?_, (hrest.arrived page hmem hopen a ha).ge,
      (List.append_nil _).symm, [], rfl, fun x => ?_⟩
    · rw [hrest.sent page hmem]
      rfl
    · rw [hrest.onTheWay_eq_zero hi hopen ha]
      rfl
  obtain ⟨page', new, hlast⟩ := h.invariant
    (I := fun v => ∃ page' new, Carried dom i a page.ourTopics w.published page page' new v)
    (fun hG ⟨page', new, h⟩ hst => h.step hG hst) ⟨page, [], hfirst⟩
  obtain ⟨lines, hlog, hcount⟩ := hlast.shown
  refine ⟨a, page', new, lines, ha, hlast.hi, hlast.published, List.perm_iff_count.mpr fun x => ?_,
    hlog⟩
  have hx := hcount x
  rwa [hrest'.onTheWay_eq_zero hlast.hi hlast.opened hlast.agent, Nat.add_zero, tally,
    filterMap_ofPublished] at hx

/-- The second page sends a text. It has the tags "hello", "cats" and "mom". -/
def oneText : List Action := [.send 1 "Use these tags on every post: #mom" "hello #cats", .run 1,
  .run 1, .run 1, .execute 2, .execute 0, .execute 1, .incoming 0, .incoming 1, .incoming 0]

/-- The first page while the second one sends its text. -/
theorem seen_iff_published_two_pages : ∃ (w v : ChatWorld) (page : ChatPage),
    w.pages[0]? = some page ∧ ∃ a page' new, ∃ lines : List ChatLine,
      page.agent = some a ∧ v.pages[0]? = some page' ∧ v.published = w.published ++ new ∧
      lines.Perm ((new.filter fun p => watched a page.ourTopics p.1).map Prod.snd) ∧
      page'.log = (lines.foldl (ChatPage.handleIncomingMessage plainDom) page).log := by
  obtain ⟨w, hw, hrest, hopen, hsecond⟩ := Machine.Runs.exists_of_run
    (m := machine plainDom strokes) (G := Typed) (s := start none) (P := fun w => w.AtRest ∧
      (w.pages[0]?.any fun page => page.readyState = .opened) ∧
      (((machine plainDom strokes).restrict fun w action => Typed w action ∧ Watches 0 action).run w
        oneText).any (AtRest ·)) twoPages (by decide +kernel)
  obtain ⟨v, hv, hrest'⟩ := Machine.Runs.exists_of_run oneText hsecond
  obtain ⟨page, hi, hopen⟩ := (Option.any_eq_true _ _).mp hopen
  have hpages : ∀ page ∈ w.pages, Plain page := hw.invariant
    (I := fun w => ∀ page ∈ w.pages, Plain page) (fun htyped h hst => plain_step h htyped hst)
    (plain_start none)
  have hcareful : (machine plainDom strokes).Runs
      (fun w action => Careful w action ∧ Watches 0 action) w v :=
    hv.strengthen (I := fun w => ∀ page ∈ w.pages, Plain page)
      (fun hG h hst => plain_step h hG.1 hst) (fun h hG => ⟨careful_of_typed h hG.1, hG.2⟩) hpages
  exact ⟨w, v, page, hi, seen_iff_published (runs_careful_of_typed hw (plain_start none)) hrest hi
    (of_decide_eq_true hopen) hcareful hrest'⟩

end ChatWorld

end Gwems
