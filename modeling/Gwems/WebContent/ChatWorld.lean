import Gwems.WebContent.ChatPages

/-!
# Chat pages and their server

Any number of pages of `WootWideChat.html` with web sockets to one server. The server runs the
messages of each page in their order, and the executor of the server runs what has been published in
any order.

`channels_iff_watched`: when the server has run what a page has sent, the session of the page has
its own channel and those that `ourTopics` denotes, and no others, whatever the other pages do.

It needs that the list is only taken while the page is open, since what is sent before is lost
("handleOpen" does not look at `ourTopics`), that the session of an open page does not expire, and
that no name that is given up denotes a channel that stays; `runs_careful_of_typed` says that lists
without control characters give such names. And no text has markup in it: the pages put what comes
in into their html as it is, so that it could be a script.
-/

namespace Gwems

/-! ### Pages and their server -/

/-- Pages and their server. -/
structure ChatWorld where
  server : ChatServer ChatLine
  pages : List ChatPage := []
  /-- The lines that pages have published so far, with their channels. -/
  published : List (String × ChatLine) := []

namespace ChatWorld

/-- What comes to a page of a message on the `messageQ` of its session. Only a server that is a
PubSub server queues `d.P2C`s. -/
def line? : Queued ChatLine → Option ChatLine
  | .p2c _ _ => none
  | .wrapper _ runme => some runme

/-- What can happen next: a page is loaded; the server accepts its socket, with the key that
`getRandom` gives; the socket opens; one of the two buttons is pressed; the server runs the next
message of a page; the executor of the server runs a task; the next message for a page comes in;
a page is closed; a session expires. -/
inductive Action
  | load
  | accept (i : ℕ) (key : String)
  | handleOpen (i : ℕ)
  | subscribe (i : ℕ) (subscriptionList : String)
  | send (i : ℕ) (setList message : String)
  | run (i : ℕ)
  | execute (n : ℕ)
  | incoming (i : ℕ)
  | close (i : ℕ)
  | expire (i : ℕ)

/-- Pages, server and executor in any order. -/
def machine (dom : Dom) (J : Jackson ChatLine) : Machine ChatWorld Action where
  step w
    | .load => some { w with pages := w.pages ++ [.load dom] }
    | .accept i key => w.pages[i]?.bind fun page =>
      if page.readyState = .connecting ∧ page.agent = none ∧
          ∀ agent ∈ w.server.sessions, agent.hash ≠ key then
        some { w with
          server := w.server.newSession key
          pages := w.pages.set i { page with agent := some ⟨w.server.sessions.length, key⟩ } }
      else none
    | .handleOpen i => w.pages[i]?.bind fun page =>
      if page.readyState = .connecting ∧ page.agent.isSome then
        some { w with pages := w.pages.set i page.handleOpen }
      else none
    | .subscribe i subscriptionList => w.pages[i]?.map fun page =>
      { w with pages := w.pages.set i (page.handleSubTags dom subscriptionList) }
    | .send i setList message => w.pages[i]?.map fun page =>
      let page' := page.handleSendText setList message
      { w with
        pages := w.pages.set i page'
        published := w.published ++
          (page'.sent.drop page.sent.length).filterMap PageMessage.publish? }
    | .run i => w.pages[i]?.bind fun page => page.agent.bind fun agent =>
      match page.sent with
      | [] => none
      | message :: sent => some { w with
          server := w.server.run agent message.message
          pages := w.pages.set i { page with sent := sent } }
    | .execute n => w.server.tasks[n]?.bind fun task => task.map fun task =>
      { w with server := w.server.execute J n task }
    | .incoming i => w.pages[i]?.bind fun page => page.agent.bind fun agent =>
      if page.readyState = .opened then
        (w.server.messageQ agent)[page.arrived]?.bind fun queued => (line? queued.2).map fun obj =>
          let page' := { page with arrived := page.arrived + 1 }
          { w with pages := w.pages.set i (page'.handleIncomingMessage dom obj) }
      else none
    | .close i => w.pages[i]?.map fun page =>
      { w with pages := w.pages.set i { page with readyState := .closed } }
    | .expire i => w.pages[i]?.bind fun page => page.agent.map fun agent =>
      { w with server := { w.server with global := w.server.global.unsubscribeAgent agent } }

/-- A server without pages. -/
def start (thePubSub : Option (List (Command ChatLine))) : ChatWorld where
  server := .start false thePubSub

/-! ### The world in step -/

variable {dom : Dom} {J : Jackson ChatLine} {w v : ChatWorld} {i j : ℕ} {page : ChatPage}
  {a : Agent} {action : Action}

/-- What a step does. -/
inductive Moves (dom : Dom) (J : Jackson ChatLine) (w : ChatWorld) : Action → ChatWorld → Prop
  | load : Moves dom J w .load { w with pages := w.pages ++ [.load dom] }
  | accept {i : ℕ} {key : String} {page : ChatPage} (hi : w.pages[i]? = some page)
      (hstate : page.readyState = .connecting) (hagent : page.agent = none)
      (hkey : ∀ agent ∈ w.server.sessions, agent.hash ≠ key) :
      Moves dom J w (.accept i key) { w with
        server := w.server.newSession key
        pages := w.pages.set i { page with agent := some ⟨w.server.sessions.length, key⟩ } }
  | handleOpen {i : ℕ} {page : ChatPage} (hi : w.pages[i]? = some page)
      (hstate : page.readyState = .connecting) (hagent : page.agent ≠ none) :
      Moves dom J w (.handleOpen i) { w with pages := w.pages.set i page.handleOpen }
  | subscribe {i : ℕ} {subscriptionList : String} {page : ChatPage}
      (hi : w.pages[i]? = some page) :
      Moves dom J w (.subscribe i subscriptionList)
        { w with pages := w.pages.set i (page.handleSubTags dom subscriptionList) }
  | send {i : ℕ} {setList message : String} {page : ChatPage} (hi : w.pages[i]? = some page) :
      Moves dom J w (.send i setList message) { w with
        pages := w.pages.set i (page.handleSendText setList message)
        published := w.published ++ ((page.handleSendText setList message).sent.drop
          page.sent.length).filterMap PageMessage.publish? }
  | run {i : ℕ} {page : ChatPage} {agent : Agent} {message : PageMessage}
      {sent : List PageMessage} (hi : w.pages[i]? = some page) (hagent : agent ∈ page.agent)
      (hsent : page.sent = message :: sent) :
      Moves dom J w (.run i) { w with
        server := w.server.run agent message.message
        pages := w.pages.set i { page with sent := sent } }
  | execute {n : ℕ} {task : Task ChatLine} (hn : w.server.tasks[n]? = some (some task)) :
      Moves dom J w (.execute n) { w with server := w.server.execute J n task }
  | incoming {i : ℕ} {page : ChatPage} {agent : Agent} {queued : ℕ × Queued ChatLine}
      {obj : ChatLine} (hi : w.pages[i]? = some page) (hagent : agent ∈ page.agent)
      (hopen : page.readyState = .opened)
      (hqueued : (w.server.messageQ agent)[page.arrived]? = some queued)
      (hobj : line? queued.2 = some obj) :
      Moves dom J w (.incoming i) { w with
        pages := w.pages.set i
          ({ page with arrived := page.arrived + 1 }.handleIncomingMessage dom obj) }
  | close {i : ℕ} {page : ChatPage} (hi : w.pages[i]? = some page) :
      Moves dom J w (.close i) { w with pages := w.pages.set i { page with readyState := .closed } }
  | expire {i : ℕ} {page : ChatPage} {agent : Agent} (hi : w.pages[i]? = some page)
      (hagent : agent ∈ page.agent) :
      Moves dom J w (.expire i)
        { w with server := { w.server with global := w.server.global.unsubscribeAgent agent } }

/-- The inversion of a step. -/
theorem step_cases (hst : (machine dom J).step w action = some v) : Moves dom J w action v := by
  cases action with
  | load =>
    cases hst
    exact .load
  | accept i key =>
    obtain ⟨page, hi, hst⟩ := Option.bind_eq_some_iff.mp hst
    split at hst
    next hguard =>
      cases hst
      exact .accept hi hguard.1 hguard.2.1 hguard.2.2
    next => cases hst
  | handleOpen i =>
    obtain ⟨page, hi, hst⟩ := Option.bind_eq_some_iff.mp hst
    split at hst
    next hguard =>
      cases hst
      exact .handleOpen hi hguard.1 (Option.isSome_iff_ne_none.mp hguard.2)
    next => cases hst
  | subscribe i subscriptionList =>
    obtain ⟨page, hi, rfl⟩ := Option.map_eq_some_iff.mp hst
    exact .subscribe hi
  | send i setList message =>
    obtain ⟨page, hi, rfl⟩ := Option.map_eq_some_iff.mp hst
    exact .send hi
  | run i =>
    obtain ⟨page, hi, hst⟩ := Option.bind_eq_some_iff.mp hst
    obtain ⟨agent, hagent, hst⟩ := Option.bind_eq_some_iff.mp hst
    split at hst
    next => cases hst
    next message sent hsent =>
      cases hst
      exact .run hi hagent hsent
  | execute n =>
    obtain ⟨task?, hn, hst⟩ := Option.bind_eq_some_iff.mp hst
    obtain ⟨task, rfl, rfl⟩ := Option.map_eq_some_iff.mp hst
    exact .execute hn
  | incoming i =>
    obtain ⟨page, hi, hst⟩ := Option.bind_eq_some_iff.mp hst
    obtain ⟨agent, hagent, hst⟩ := Option.bind_eq_some_iff.mp hst
    split at hst
    next hopen =>
      obtain ⟨queued, hqueued, hst⟩ := Option.bind_eq_some_iff.mp hst
      obtain ⟨obj, hobj, rfl⟩ := Option.map_eq_some_iff.mp hst
      exact .incoming hi hagent hopen hqueued hobj
    next => cases hst
  | close i =>
    obtain ⟨page, hi, rfl⟩ := Option.map_eq_some_iff.mp hst
    exact .close hi
  | expire i =>
    obtain ⟨page, hi, hst⟩ := Option.bind_eq_some_iff.mp hst
    obtain ⟨agent, hagent, rfl⟩ := Option.map_eq_some_iff.mp hst
    exact .expire hi hagent

/-- The list is not taken before the socket is open, and no name that it gives up denotes a channel
that stays; the session of an open page does not expire; and no text has markup in it, which could
be a script. -/
def Careful (w : ChatWorld) : Action → Prop
  | .subscribe i subscriptionList => '<' ∉ subscriptionList.toList ∧
      ∀ page ∈ w.pages[i]?, page.readyState = .closed ∨
        page.readyState = .opened ∧ ∀ a ∈ page.agent, GWEMS.Separable (GWEMS.own a) page.ourTopics
          (WootWideChat.tagSet subscriptionList (some ' '))
  | .send _ setList message => '<' ∉ setList.toList ∧ '<' ∉ message.toList
  | .expire i => ∀ page ∈ w.pages[i]?, page.readyState = .closed
  | _ => True

/-- The pages are in step with their sessions, which are different ones; what has no session yet has
no channels. -/
structure InStep (w : ChatWorld) : Prop where
  tidy : w.server.Tidy
  ids : ∀ a ∈ w.server.sessions, a.id < w.server.sessions.length
  fresh : ∀ a : Agent, w.server.sessions.length ≤ a.id → ∀ c, c ∉ w.server.global.channels a
  pages : ∀ page ∈ w.pages, page.InStep w.server.global
  agents : ∀ (i : ℕ) (page : ChatPage), w.pages[i]? = some page → ∀ a ∈ page.agent,
    a ∈ w.server.sessions ∧
      ∀ (j : ℕ) (page' : ChatPage), w.pages[j]? = some page' → a ∈ page'.agent → j = i

/-- A step that moves one page, with the same session as before, and does nothing to the channels of
other sessions. -/
theorem InStep.move (h : w.InStep) {page' : ChatPage} (hi : w.pages[i]? = some page)
    (hpages : v.pages = w.pages.set i page') (hagent : page'.agent = page.agent)
    (htidy : v.server.Tidy) (hsessions : v.server.sessions = w.server.sessions)
    (hchannels : ∀ b, b ∉ page.agent → ∀ c,
      c ∈ v.server.global.channels b ↔ c ∈ w.server.global.channels b)
    (hpage : page'.InStep v.server.global) : v.InStep where
  tidy := htidy
  ids := hsessions ▸ h.ids
  fresh b hb c := by
    rw [hsessions] at hb
    have hnot : b ∉ page.agent := fun ha => by
      have := h.ids b (h.agents i page hi b ha).1
      omega
    rw [hchannels b hnot c]
    exact h.fresh b hb c
  pages q hq := by
    obtain ⟨j, hj⟩ := List.mem_iff_getElem?.mp hq
    rw [hpages] at hj
    by_cases hji : i = j
    · subst hji
      rw [List.getElem?_set_self (List.getElem?_eq_some_iff.mp hi).1] at hj
      rw [← Option.some.inj hj]
      exact hpage
    · rw [List.getElem?_set_ne hji] at hj
      refine (h.pages q (List.mem_of_getElem? hj)).congr fun b hb c => hchannels b ?_ c
      intro ha
      exact hji ((h.agents j q hj b hb).2 i page hi ha)
  agents j q hj b hb := by
    -- the pages have the sessions they had
    have hback : ∀ (j : ℕ) (q : ChatPage), v.pages[j]? = some q →
        ∃ q', w.pages[j]? = some q' ∧ q'.agent = q.agent := by
      intro j q hj
      rw [hpages] at hj
      by_cases hji : i = j
      · subst hji
        rw [List.getElem?_set_self (List.getElem?_eq_some_iff.mp hi).1] at hj
        exact ⟨page, hi, by rw [← Option.some.inj hj, hagent]⟩
      · rw [List.getElem?_set_ne hji] at hj
        exact ⟨q, hj, rfl⟩
    obtain ⟨q', hq', hagent'⟩ := hback j q hj
    obtain ⟨hmem, hunique⟩ := h.agents j q' hq' b (hagent' ▸ hb)
    refine ⟨hsessions ▸ hmem, fun k r hk hr => ?_⟩
    obtain ⟨r', hr', hagentr⟩ := hback k r hk
    exact hunique k r' hr' (hagentr ▸ hr)

/-- A session that is made for a page. -/
theorem InStep.accept (h : w.InStep) {key : String} (hi : w.pages[i]? = some page)
    (hstate : page.readyState = .connecting)
    (hkey : ∀ agent ∈ w.server.sessions, agent.hash ≠ key) :
    InStep { w with
      server := w.server.newSession key
      pages := w.pages.set i { page with agent := some ⟨w.server.sessions.length, key⟩ } } := by
  set b : Agent := ⟨w.server.sessions.length, key⟩ with hb
  have hlt : i < w.pages.length := (List.getElem?_eq_some_iff.mp hi).1
  have hnew : b ∉ w.server.sessions := fun hmem => absurd (h.ids b hmem) (lt_irrefl _)
  -- the channels of the others are as before
  have hother : ∀ d, d ≠ b → ∀ c, c ∈ (w.server.newSession key).global.channels d ↔
      c ∈ w.server.global.channels d := fun d hd c =>
    Global.mem_channels_perform_of_ne (.subscribe b key) hd.symm
  have hpages : ∀ (j : ℕ) (q : ChatPage),
      (w.pages.set i { page with agent := some b })[j]? = some q →
        (j = i ∧ q = { page with agent := some b }) ∨ j ≠ i ∧ w.pages[j]? = some q := by
    intro j q hj
    by_cases hji : i = j
    · subst hji
      rw [List.getElem?_set_self hlt] at hj
      exact .inl ⟨rfl, (Option.some.inj hj).symm⟩
    · rw [List.getElem?_set_ne hji] at hj
      exact .inr ⟨Ne.symm hji, hj⟩
  refine ⟨h.tidy.newSession hkey, fun a ha => ?_, fun a ha c => ?_, fun q hq => ?_, ?_⟩
  · change a.id < (w.server.sessions ++ [b]).length
    rw [List.length_append, List.length_singleton]
    rcases List.mem_append.mp ha with ha | ha
    · have := h.ids a ha
      omega
    · rw [List.mem_singleton.mp ha]
      exact Nat.lt_succ_self _
  · change (w.server.sessions ++ [b]).length ≤ a.id at ha
    rw [List.length_append, List.length_singleton] at ha
    have hne : a ≠ b := by
      rintro rfl
      exact absurd ha (by simp [hb])
    rw [hother a hne c]
    exact h.fresh a (by omega) c
  · obtain ⟨j, hj⟩ := List.mem_iff_getElem?.mp hq
    rcases hpages j q hj with ⟨rfl, rfl⟩ | ⟨hji, hj⟩
    · exact (h.pages page (List.mem_of_getElem? hi)).accept hstate (h.fresh b le_rfl)
    · refine (h.pages q (List.mem_of_getElem? hj)).congr fun d hd c => hother d ?_ c
      rintro rfl
      exact hnew (h.agents j q hj _ hd).1
  · intro j q hj d hd
    rcases hpages j q hj with ⟨rfl, rfl⟩ | ⟨hji, hj⟩
    · obtain rfl : d = b := (Option.some.inj hd).symm
      refine ⟨List.mem_append_right _ (List.mem_singleton_self _), fun k r hk hr => ?_⟩
      rcases hpages k r hk with ⟨rfl, -⟩ | ⟨-, hk⟩
      · rfl
      · exact absurd (h.agents k r hk _ hr).1 hnew
    · obtain ⟨hmem, hunique⟩ := h.agents j q hj d hd
      refine ⟨List.mem_append_left _ hmem, fun k r hk hr => ?_⟩
      rcases hpages k r hk with ⟨-, rfl⟩ | ⟨-, hk⟩
      · obtain rfl : d = b := (Option.some.inj hr).symm
        exact absurd hmem hnew
      · exact hunique k r hk hr

/-- The server runs the first message of a page. -/
theorem InStep.run (h : w.InStep) {message : PageMessage} {sent : List PageMessage}
    (hi : w.pages[i]? = some page) (ha : a ∈ page.agent) (hsent : page.sent = message :: sent) :
    InStep { w with
      server := w.server.run a message.message
      pages := w.pages.set i { page with sent := sent } } := by
  have hpage := h.pages page (List.mem_of_getElem? hi)
  have hsession : ∃ j, w.server.sessions[j]? = some a :=
    List.mem_iff_getElem?.mp (h.agents i page hi a ha).1
  obtain ⟨j, hj⟩ := hsession
  cases message with
  | socket message =>
    have hrun : w.server.run a (.socket message) =
        { w.server with global := GWEMS.run a w.server.global message } := rfl
    have htidy : (w.server.run a (.socket message)).Tidy := by
      rw [hrun, GWEMS.run]
      cases hcall : message.call a with
      | none => exact h.tidy
      | some call => exact h.tidy.perform hj (ChatServer.call_agent hcall)
    refine h.move hi rfl rfl htidy rfl (fun b hb c => ?_) (hpage.run_socket hsent ha)
    change c ∈ (GWEMS.run a w.server.global message).channels b ↔ _
    rw [GWEMS.run]
    cases hcall : message.call a with
    | none => rfl
    | some call =>
      refine Global.mem_channels_perform_of_ne call ?_
      rw [ChatServer.call_agent hcall]
      rintro rfl
      exact hb ha
  | publish channel msg =>
    have hquiet := ChatServer.quiet_runPublish w.server channel msg
    have hchannels : ∀ b c, c ∈ (w.server.runPublish channel msg).global.channels b ↔
        c ∈ w.server.global.channels b := fun b c => by
      rw [Global.mem_channels, hquiet.session2channel, ← Global.mem_channels]
    exact h.move hi rfl rfl (h.tidy.of_quiet hquiet) hquiet.sessions (fun b _ c => hchannels b c)
      ((hpage.run_publish hsent).congr fun b _ c => hchannels b c)

/-- A page is loaded. -/
theorem InStep.load (h : w.InStep) : InStep { w with pages := w.pages ++ [.load dom] } := by
  have hold : ∀ {b : Agent} (k : ℕ) (r : ChatPage), (w.pages ++ [.load dom])[k]? = some r →
      b ∈ r.agent → w.pages[k]? = some r := by
    intro b k r hk hr
    rw [List.getElem?_append] at hk
    split at hk
    next => exact hk
    next =>
      rw [List.mem_singleton.mp (List.mem_of_getElem? hk)] at hr
      cases hr
  refine ⟨h.tidy, h.ids, h.fresh, fun q hq => ?_, fun j q hj b hb => ?_⟩
  · rcases List.mem_append.mp hq with hq | hq
    · exact h.pages q hq
    · rw [List.mem_singleton.mp hq]
      exact ChatPage.inStep_load dom
  · obtain ⟨hmem, hunique⟩ := h.agents j q (hold j q hj hb) b hb
    exact ⟨hmem, fun k r hk hr => hunique k r (hold k r hk hr) hr⟩

/-- The session of a closed page expires. -/
theorem InStep.expire (h : w.InStep) (hi : w.pages[i]? = some page) (ha : a ∈ page.agent)
    (hclosed : page.readyState = .closed) :
    InStep { w with
      server := { w.server with global := w.server.global.unsubscribeAgent a } } := by
  obtain ⟨j, hj⟩ := List.mem_iff_getElem?.mp (h.agents i page hi a ha).1
  have hset : w.pages = w.pages.set i page := by
    obtain ⟨hlt, hget⟩ := List.getElem?_eq_some_iff.mp hi
    rw [← hget, List.set_getElem_self]
  have hcall : (SubscriptionCall.unsubscribeAgent a).agent = a := rfl
  refine h.move hi hset rfl (h.tidy.perform hj hcall) rfl (fun b hb c => ?_)
    (ChatPage.inStep_of_closed hclosed)
  refine Global.mem_channels_perform_of_ne (.unsubscribeAgent a) ?_
  rintro rfl
  exact hb ha

/-- The step lemma. -/
theorem InStep.step (h : w.InStep) (hcareful : Careful w action)
    (hst : (machine dom J).step w action = some v) : v.InStep := by
  have hsame : ∀ (b : Agent) (c : String),
      c ∈ w.server.global.channels b ↔ c ∈ w.server.global.channels b := fun _ _ => Iff.rfl
  cases step_cases hst with
  | load => exact h.load
  | accept hi hstate _ hkey => exact h.accept hi hstate hkey
  | handleOpen hi hstate hagent =>
    exact h.move hi rfl rfl h.tidy rfl (fun b _ => hsame b)
      ((h.pages _ (List.mem_of_getElem? hi)).handleOpen hstate hagent)
  | @subscribe i subscriptionList page hi =>
    refine h.move hi rfl ?_ h.tidy rfl (fun b _ => hsame b)
      ((h.pages _ (List.mem_of_getElem? hi)).handleSubTags dom (hcareful.2 page hi))
    obtain ⟨log, heq⟩ := ChatPage.handleSubTags_eq dom page subscriptionList
    rw [heq, ChatPage.send]
    split <;> rfl
  | @send i setList message page hi =>
    refine h.move hi rfl ?_ h.tidy rfl (fun b _ => hsame b)
      ((h.pages _ (List.mem_of_getElem? hi)).handleSendText setList message)
    rw [ChatPage.handleSendText]
    split
    next => rfl
    next =>
      rw [ChatPage.send]
      split <;> rfl
  | run hi hagent hsent => exact h.run hi hagent hsent
  | execute => exact ⟨⟨h.tidy.keys, h.tidy.separate⟩, h.ids, h.fresh, h.pages, h.agents⟩
  | incoming hi =>
    rw [ChatPage.handleIncomingMessage_eq]
    exact h.move hi rfl rfl h.tidy rfl (fun b _ => hsame b)
      ((h.pages _ (List.mem_of_getElem? hi)).incoming _ _)
  | close hi =>
    exact h.move hi rfl rfl h.tidy rfl (fun b _ => hsame b) (ChatPage.inStep_of_closed rfl)
  | @expire i page agent hi hagent => exact h.expire hi hagent (hcareful page hi)

theorem inStep_start (thePubSub : Option (List (Command ChatLine))) :
    (start thePubSub).InStep where
  tidy := ChatServer.tidy_start _ _
  ids a ha := by cases ha
  fresh a _ c hc := TwoWayMapping.not_mem_things_empty (Global.mem_channels.mp hc)
  pages page hpage := by cases hpage
  agents i page hi := by cases hi

/-- What a page has sent can always be run. -/
theorem exists_runs_all (dom : Dom) (J : Jackson ChatLine) (w : ChatWorld)
    (hi : w.pages[i]? = some page) (ha : page.agent = some a) :
    ∃ v, (machine dom J).Runs Careful w v ∧ v.pages[i]? = some { page with sent := [] } := by
  induction hsent : page.sent generalizing w page with
  | nil => exact ⟨w, .refl, by rw [hi, ← hsent]⟩
  | cons message sent ih =>
    have hlt : i < w.pages.length := (List.getElem?_eq_some_iff.mp hi).1
    let w' : ChatWorld := { w with
      server := w.server.run a message.message
      pages := w.pages.set i { page with sent := sent } }
    have hst : (machine dom J).step w (.run i) = some w' := by
      simp [machine, hi, ha, hsent, w']
    have hi' : w'.pages[i]? = some { page with sent := sent } := List.getElem?_set_self hlt
    obtain ⟨v, hv, hpage⟩ := ih w' hi' ha rfl
    have hcareful : Careful w (.run i) := trivial
    exact ⟨v, .head hcareful hst hv, hpage⟩

/-- The lists are typed, and not before the socket is open; no page watches the key of its session,
the session of an open page does not expire, and no text has markup in it. -/
def Typed (w : ChatWorld) : Action → Prop
  | .accept i key => ∀ page ∈ w.pages[i]?, key ∉ page.ourTopics.object.keys
  | .subscribe i subscriptionList => '<' ∉ subscriptionList.toList ∧
      ∀ page ∈ w.pages[i]?, page.readyState ≠ .connecting ∧
        WootWideChat.IsTyped subscriptionList ∧ ∀ a ∈ page.agent,
          a.hash ∉ (WootWideChat.tagSet subscriptionList (some ' ')).object.keys
  | .send _ setList message => '<' ∉ setList.toList ∧ '<' ∉ message.toList
  | .expire i => ∀ page ∈ w.pages[i]?, page.readyState = .closed
  | _ => True

instance (w : ChatWorld) : (action : Action) → Decidable (Typed w action)
  | .accept _ _ => inferInstanceAs (Decidable (∀ _ ∈ _, _))
  | .subscribe _ _ => inferInstanceAs (Decidable (_ ∧ ∀ _ ∈ _, _ ∧ _ ∧ ∀ _ ∈ _, _))
  | .send _ _ _ => inferInstanceAs (Decidable (_ ∧ _))
  | .expire _ => inferInstanceAs (Decidable (∀ _ ∈ _, _))
  | .load | .handleOpen _ | .run _ | .execute _ | .incoming _ | .close _ =>
    inferInstanceAs (Decidable True)

/-- The names that a page watches are channels as they are, and its own key is none of them. -/
structure Plain (page : ChatPage) : Prop where
  trimmed : ∀ name ∈ page.ourTopics, javaTrim name = name ∧ name ≠ "__proto__"
  key : ∀ a ∈ page.agent, a.hash ∉ page.ourTopics.object.keys

/-- Other fields of the page do not matter. -/
theorem Plain.congr (h : Plain page) {page' : ChatPage} (htopics : page'.ourTopics = page.ourTopics)
    (hagent : page'.agent = page.agent) : Plain page' where
  trimmed := htopics ▸ h.trimmed
  key := by
    rw [htopics, hagent]
    exact h.key

theorem plain_load (dom : Dom) : Plain (.load dom) where
  trimmed name h := by
    rcases List.mem_cons.mp (ChatPage.mem_firstTopics.mp h) with rfl | h
    · decide
    · rw [List.mem_singleton.mp h]
      decide
  key a ha := by cases ha

/-- What is sent does not change what is watched. -/
theorem send_same (page : ChatPage) (messages : List PageMessage) :
    (page.send messages).ourTopics = page.ourTopics ∧
      (page.send messages).agent = page.agent := by
  rw [ChatPage.send]
  split <;> exact ⟨rfl, rfl⟩

/-- The step lemma. -/
theorem plain_step (h : ∀ page ∈ w.pages, Plain page) (htyped : Typed w action)
    (hst : (machine dom J).step w action = some v) : ∀ page ∈ v.pages, Plain page := by
  have hset : ∀ {i : ℕ} {q : ChatPage}, Plain q → ∀ page ∈ w.pages.set i q, Plain page := by
    intro i q hq page hpage
    rcases List.mem_or_eq_of_mem_set hpage with hpage | rfl
    · exact h page hpage
    · exact hq
  cases step_cases hst with
  | load =>
    intro page hpage
    rcases List.mem_append.mp hpage with hpage | hpage
    · exact h page hpage
    · rw [List.mem_singleton.mp hpage]
      exact plain_load dom
  | @accept i key page hi =>
    refine hset ⟨(h page (List.mem_of_getElem? hi)).trimmed, fun a ha => ?_⟩
    rw [← Option.some.inj ha]
    exact htyped page hi
  | handleOpen hi =>
    have hpage := h _ (List.mem_of_getElem? hi)
    exact hset (hpage.congr (send_same _ _).1 (send_same _ _).2)
  | @subscribe i subscriptionList page hi =>
    obtain ⟨-, hlist, hkey⟩ := htyped.2 page hi
    obtain ⟨log, heq⟩ := ChatPage.handleSubTags_eq dom page subscriptionList
    rw [heq]
    refine hset ⟨fun name hname => ?_, fun a ha => ?_⟩
    · exact ⟨WootWideChat.javaTrim_of_mem_tagSet hlist hname,
        (WootWideChat.mem_tagSet_iff.mp hname).1⟩
    · exact hkey a ((send_same _ _).2 ▸ ha)
  | @send i setList message page hi =>
    have hpage := h _ (List.mem_of_getElem? hi)
    refine hset ?_
    rw [ChatPage.handleSendText]
    split
    next => exact hpage
    next => exact hpage.congr (send_same _ _).1 (send_same _ _).2
  | run hi => exact hset ((h _ (List.mem_of_getElem? hi)).congr rfl rfl)
  | execute => exact h
  | incoming hi =>
    rw [ChatPage.handleIncomingMessage_eq]
    exact hset ((h _ (List.mem_of_getElem? hi)).congr rfl rfl)
  | close hi => exact hset ((h _ (List.mem_of_getElem? hi)).congr rfl rfl)
  | expire => exact h

theorem careful_of_typed (h : ∀ page ∈ w.pages, Plain page) (htyped : Typed w action) :
    Careful w action := by
  cases action with
  | subscribe i subscriptionList =>
    refine ⟨htyped.1, fun page hi => ?_⟩
    obtain ⟨hstate, hlist, hkey⟩ := htyped.2 page hi
    have hpage := h page (List.mem_of_getElem? hi)
    cases hopen : page.readyState with
    | connecting => exact absurd hopen hstate
    | closed => exact .inl rfl
    | opened =>
      refine .inr ⟨rfl, fun a ha => ?_⟩
      refine WootWideChat.separable_of_trimmed hpage.trimmed (fun name hname => ?_) (hpage.key a ha)
      exact ⟨WootWideChat.javaTrim_of_mem_tagSet hlist hname,
        (WootWideChat.mem_tagSet_iff.mp hname).1⟩
  | send i setList message => exact htyped
  | expire i => exact htyped
  | _ => trivial

/-- **With typed lists a run is careful.** -/
theorem runs_careful_of_typed (h : (machine dom J).Runs Typed w v)
    (hw : ∀ page ∈ w.pages, Plain page) : (machine dom J).Runs Careful w v :=
  h.strengthen (I := fun w => ∀ page ∈ w.pages, Plain page)
    (fun htyped h hst => plain_step h htyped hst) (fun h htyped => careful_of_typed h htyped) hw

theorem plain_start (thePubSub : Option (List (Command ChatLine))) :
    ∀ page ∈ (start thePubSub).pages, Plain page := by
  intro page hpage
  cases hpage

/-- Lines that are written as the length of the first string, in strokes, and the two strings. -/
def strokes : Jackson ChatLine where
  serialize line := String.ofList
    (List.replicate line.from.length '|' ++ '.' :: (line.from.toList ++ line.msg.toList))
  deserialize s :=
    let n := (s.toList.takeWhile (· = '|')).length
    let l := s.toList.drop (n + 1)
    if h : String.ofList (l.take n) ≠ "" ∧ String.ofList (l.drop n) ≠ "" then
      some ⟨_, _, h.1, h.2⟩
    else none
  deserialize_serialize line := by
    have htake : (List.replicate line.from.length '|' ++ '.' ::
        (line.from.toList ++ line.msg.toList)).takeWhile (· = '|') =
          List.replicate line.from.length '|' := by
      simp
    have hdrop : (List.replicate line.from.length '|' ++ '.' ::
        (line.from.toList ++ line.msg.toList)).drop (line.from.length + 1) =
          line.from.toList ++ line.msg.toList := by
      simp [List.drop_append]
    have hlength : line.from.length = line.from.toList.length := String.length_toList.symm
    simp only [String.toList_ofList, htake, List.length_replicate, hdrop]
    simp only [hlength, List.take_left, List.drop_left, String.ofList_toList]
    rw [dif_pos ⟨line.from_ne, line.msg_ne⟩]

/-- A browser that closes the `span` of a line and changes nothing else. -/
def plainDom : Dom where
  fragment s := Utf16.codeUnits (if "<span>".toList <+: s.toList then s ++ "</span>" else s)
  parse := id
  howItWorks := Utf16.codeUnits "How it works: There are topics that are subscribed to. <br>"

/-- Two pages are opened, and the first one is to watch "#mom" and "#cats". -/
def twoPages : List Action := [.load, .load, .accept 0 "key0", .accept 1 "key1", .handleOpen 0,
  .handleOpen 1, .run 0, .run 0, .run 1, .run 1, .subscribe 0 "#mom #cats", .run 0, .run 0]

end ChatWorld

end Gwems
