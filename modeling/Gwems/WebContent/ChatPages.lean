import Gwems.Library.Utf16
import Gwems.WebContent.ChatTopics

/-!
# `WootWideChat.html`: a chat page

A page keeps the names that it watches in `ourTopics`; when its socket opens it subscribes to the
two it starts with, and whenever the list of its text area is taken it sends the differences and the
list is the new `ourTopics`. A text is published once for every tag in it. What comes in is put in
front of the log, of which 4096 units of html are kept then.

`ChatPage.InStep` is what the difference of the sets is for: when the server has run what a page has
sent, its session has the channels that `ourTopics` denotes. What the browser makes of html is the
parameter `Dom`.
-/

namespace Gwems

/-! ### Pages -/

/-- An object that a page publishes. Both strings count as true. -/
structure ChatLine where
  «from» : String
  msg : String
  from_ne : «from» ≠ ""
  msg_ne : msg ≠ ""
deriving DecidableEq

/-- The state of a web socket. -/
inductive ReadyState
  | connecting
  | opened
  | closed
deriving DecidableEq

/-- What a page sends. -/
inductive PageMessage
  | socket (message : SocketMessage)
  | publish (channel : String) (msg : ChatLine)

namespace PageMessage

/-- The message that the session of the page runs. -/
def message : PageMessage → ChannelMessage ChatLine
  | .socket message => .socket message
  | .publish channel msg => .publish channel msg

/-- A `Subscribe` or an `Unsubscribe`. -/
def socket? : PageMessage → Option SocketMessage
  | .socket message => some message
  | .publish _ _ => none

/-- A line that is published, with the name under which it is. -/
def publish? : PageMessage → Option (String × ChatLine)
  | .socket _ => none
  | .publish channel msg => some (channel, msg)

end PageMessage

/-- `ourTopics` "to start with". -/
def firstTopics : ChannelNames where
  object := ((∅ : JsObject).put "#TimeEveryMinute" (some "#TimeEveryMinute")).put "#mom"
    (some "#mom")
  value_eq key value h := by
    rw [KMap.get?_put, KMap.get?_put] at h
    split at h
    next hkey => rw [← Option.some_inj.mp h, JsObject.names_same.mp hkey]
    next =>
      split at h
      next hkey => rw [← Option.some_inj.mp h, JsObject.names_same.mp hkey]
      next => cases h

/-- What a browser does with html, in code units: the html of what `prepend(s)` puts in front of an
element, that of an element after `html(txt)`, and that of `#log` in a page that has been loaded. -/
structure Dom where
  fragment : String → List ℕ
  parse : List ℕ → List ℕ
  howItWorks : List ℕ

/-- `wwc.toTags(map, delim)`. -/
def WootWideChat.toTags (map : JsObject) (delim : String) : String :=
  " ".intercalate (map.keys.map ((if delim ≠ "" then "#" else delim) ++ ·))

/-- A page of `WootWideChat.html`. -/
structure ChatPage where
  ourTopics : ChannelNames := firstTopics
  readyState : ReadyState := .connecting
  /-- The agent of its session. -/
  agent : Option Agent := none
  /-- What has been sent and not been run yet. -/
  sent : List PageMessage := []
  /-- How many of the messages on the `messageQ` of its session have come in. -/
  arrived : ℕ := 0
  /-- The html of `#log`. -/
  log : List ℕ

namespace ChatPage

/-- A page that is loaded. -/
def load (dom : Dom) : ChatPage := { log := dom.howItWorks }

/-- `$("#log").prepend(s)`. -/
def prepend (dom : Dom) (page : ChatPage) (s : String) : ChatPage :=
  { page with log := dom.fragment s ++ page.log }

/-- `sock.send`, for some messages: the error of a socket that is not open is caught. -/
def send (page : ChatPage) (messages : List PageMessage) : ChatPage :=
  if page.readyState = .opened then { page with sent := page.sent ++ messages } else page

/-- `sock.handleOpen`. -/
def handleOpen (page : ChatPage) : ChatPage :=
  { page with readyState := .opened }.send
    [.socket (.subscribe "#TimeEveryMinute"), .socket (.subscribe "#mom")]

/-- `subscribe(aMap)`. -/
def subscribe (page : ChatPage) (aMap : JsObject) : ChatPage :=
  page.send (aMap.keys.map fun key => .socket (.subscribe key))

/-- `unsubscribe(aMap)`. -/
def unsubscribe (page : ChatPage) (aMap : JsObject) : ChatPage :=
  page.send (aMap.keys.map fun key => .socket (.unsubscribe key))

/-- `handleSubTags`, with the text of `subscriptionList`. -/
def handleSubTags (dom : Dom) (page : ChatPage) (subscriptionList : String) : ChatPage :=
  let after := WootWideChat.tagSet subscriptionList (some ' ')
  let before := page.ourTopics
  let added := GWEMS.addedToSet before.object after.object
  let removed := GWEMS.removedFromSet before.object after.object
  let page :=
    if added.keys.length ≠ 0 then
      (page.prepend dom
        ("subscribed to " ++ WootWideChat.toTags added "" ++ "<br>")).subscribe added
    else page
  let page :=
    if removed.keys.length ≠ 0 then
      (page.prepend dom
        ("unsubscribed from " ++ WootWideChat.toTags removed "" ++ "<br>")).unsubscribe removed
    else page
  { page with ourTopics := after }

theorem ne_empty_of_javaLength {str : String} (h : ¬ javaLength str < 1) : str ≠ "" := by
  rintro rfl
  exact h (by decide)

/-- `handleSendText(str)`, with the text of `setList`: a line for each tag, from the tag. -/
def handleSendText (page : ChatPage) (theAlwaysTags str : String) : ChatPage :=
  if h : javaLength str < 1 then page
  else
    let tagMap := WootWideChat.extractTags (str ++ " " ++ theAlwaysTags) none
    page.send (tagMap.keys.map fun key =>
      .publish ("#" ++ key) ⟨"#" ++ key, str, by simp, ne_empty_of_javaLength h⟩)

/-- `logincoming(from, message)`, which cuts what is there already. -/
def logincoming (dom : Dom) (page : ChatPage) («from» message : String) : ChatPage :=
  let s := "<span>" ++ «from» ++ " -- " ++ message ++ "<br>"
  let txt := page.log
  let page :=
    if txt.length > 4 * 1024 then { page with log := dom.parse (txt.take 4096) } else page
  page.prepend dom s

/-- `handleIncomingMessage(obj)`, for an object with a `from` and a `msg`. -/
def handleIncomingMessage (dom : Dom) (page : ChatPage) (obj : ChatLine) : ChatPage :=
  page.logincoming dom obj.from obj.msg

end ChatPage

/-! ### Pages in step with their sessions -/

namespace ChatPage

variable {g g' : Global ChatLine} {page : ChatPage} {a : Agent} {c : String}

/-- The `Subscribe`s and `Unsubscribe`s that the server has not run yet, with those of
`handleOpen`. -/
def pending (page : ChatPage) : List SocketMessage :=
  page.sent.filterMap PageMessage.socket? ++
    if page.readyState = .connecting then [.subscribe "#TimeEveryMinute", .subscribe "#mom"] else []

/-- When the server has run what is pending, the session of the page has the channels that
`ourTopics` denotes. -/
structure InStep (g : Global ChatLine) (page : ChatPage) : Prop where
  connecting : page.readyState = .connecting → page.sent = [] ∧ page.ourTopics = firstTopics
  session : page.readyState = .opened → page.agent ≠ none
  told : page.readyState ≠ .closed → ∀ a ∈ page.agent, ∀ c,
    c ∈ (GWEMS.runAll a g page.pending).channels a ↔
      c ∈ GWEMS.wanted (GWEMS.own a) page.ourTopics

/-- It only depends on the channels of the session. -/
theorem InStep.congr (h : InStep g page)
    (hg : ∀ a ∈ page.agent, ∀ c, c ∈ g'.channels a ↔ c ∈ g.channels a) : InStep g' page where
  connecting := h.connecting
  session := h.session
  told hopen a ha c :=
    (Global.mem_channels_runAll_congr (hg a ha) page.pending c).trans (h.told hopen a ha c)

theorem inStep_of_closed (h : page.readyState = .closed) : InStep g page where
  connecting := by simp [h]
  session := by simp [h]
  told := by simp [h]

/-- A page that is loaded. -/
theorem inStep_load (dom : Dom) : InStep g (load dom) where
  connecting _ := ⟨rfl, rfl⟩
  session h := by cases h
  told _ a ha := by cases ha

theorem mem_firstTopics {name : String} :
    name ∈ firstTopics ↔ name ∈ ["#TimeEveryMinute", "#mom"] := Iff.rfl

/-- A page whose session is made. -/
theorem InStep.accept (h : InStep g page) (hstate : page.readyState = .connecting)
    (hg : ∀ c, c ∉ g.channels a) :
    InStep (g.subscribe a a.hash) { page with agent := some a } where
  connecting := h.connecting
  session hopen := by simp
  told _ b hb c := by
    obtain rfl := Option.some.inj hb
    obtain ⟨hsent, htopics⟩ := h.connecting hstate
    have hpending : ({ page with agent := some a } : ChatPage).pending =
        ["#TimeEveryMinute", "#mom"].map .subscribe := by
      simp [pending, hsent, hstate]
    have hown : c ∈ (g.subscribe a a.hash).channels a ↔ c ∈ GWEMS.own a := by
      change c ∈ (g.perform (.subscribe a a.hash)).channels a ↔ _
      rw [Global.mem_channels_perform, decide_eq_false (hg c)]
      simp [SubscriptionCall.effect, GWEMS.own, eq_comm (a := a.hash) (b := c)]
      rintro rfl
      rfl
    rw [hpending, GWEMS.mem_channels_runAll_subscribe, hown, htopics]
    simp only [GWEMS.wanted, Set.mem_ofPred_eq, mem_firstTopics]

/-- `handleOpen` sends what was pending. -/
theorem InStep.handleOpen (h : InStep g page) (hstate : page.readyState = .connecting)
    (hagent : page.agent ≠ none) : InStep g page.handleOpen where
  connecting hopen := by cases hopen
  session _ := hagent
  told _ a ha c := by
    obtain ⟨hsent, -⟩ := h.connecting hstate
    have hpending : page.handleOpen.pending = page.pending := by
      simp [ChatPage.handleOpen, send, pending, hsent, hstate, PageMessage.socket?]
    rw [hpending]
    exact h.told (by simp [hstate]) a ha c

theorem send_prepend (dom : Dom) (page : ChatPage) (str : String) (messages : List PageMessage) :
    (page.prepend dom str).send messages =
      { page.send messages with log := dom.fragment str ++ page.log } := by
  by_cases hopen : page.readyState = .opened <;> simp [send, prepend, hopen]

/-- What `handleSubTags` does to a page, but for its log: the two tests for an empty set leave out
nothing. -/
theorem handleSubTags_eq (dom : Dom) (page : ChatPage) (subscriptionList : String) :
    ∃ log, page.handleSubTags dom subscriptionList =
      { page.send ((GWEMS.subscribeChanges page.ourTopics.object
          (WootWideChat.tagSet subscriptionList (some ' ')).object).map .socket) with
        ourTopics := WootWideChat.tagSet subscriptionList (some ' ')
        log := log } := by
  have hskip : ∀ (page : ChatPage) (str : String) (o : JsObject) (f : String → PageMessage),
      ∃ log, (if o.keys.length ≠ 0 then (page.prepend dom str).send (o.keys.map f) else page) =
        { page.send (o.keys.map f) with log := log } := by
    intro page str o f
    split
    next => exact ⟨_, send_prepend dom page str _⟩
    next h => exact ⟨page.log, by simp [List.length_eq_zero_iff.mp (not_not.mp h), send]⟩
  rw [GWEMS.subscribeChanges_eq]
  simp only [handleSubTags, subscribe, unsubscribe, GWEMS.subscribe, GWEMS.unsubscribe,
    List.map_append, List.map_map]
  obtain ⟨log, hadded⟩ := hskip page _ _ _
  rw [hadded]
  obtain ⟨log', hremoved⟩ := hskip _ _ _ _
  rw [hremoved]
  refine ⟨log', ?_⟩
  simp only [send]
  split
  next hopen => simp [hopen, Function.comp_def]
  next => simp

theorem pending_of_not_connecting (h : page.readyState ≠ .connecting) :
    page.pending = page.sent.filterMap PageMessage.socket? := by
  rw [pending, if_neg h, List.append_nil]

theorem filterMap_socket? (messages : List SocketMessage) :
    (messages.map PageMessage.socket).filterMap PageMessage.socket? = messages := by
  rw [List.filterMap_map]
  exact List.filterMap_some

/-- What is sent is pending. -/
theorem pending_send (hopen : page.readyState = .opened) (messages : List PageMessage) :
    (page.send messages).pending = page.pending ++ messages.filterMap PageMessage.socket? := by
  simp [pending, send, hopen]

/-- The changes that `handleSubTags` sends. -/
theorem InStep.handleSubTags (h : InStep g page) (dom : Dom) {subscriptionList : String}
    (hlist : page.readyState = .closed ∨ page.readyState = .opened ∧ ∀ a ∈ page.agent,
      GWEMS.Separable (GWEMS.own a) page.ourTopics
        (WootWideChat.tagSet subscriptionList (some ' '))) :
    InStep g (page.handleSubTags dom subscriptionList) := by
  obtain ⟨log, heq⟩ := handleSubTags_eq dom page subscriptionList
  rw [heq]
  set changes := GWEMS.subscribeChanges page.ourTopics.object
    (WootWideChat.tagSet subscriptionList (some ' ')).object with hchanges
  rcases hlist with hclosed | ⟨hopen, hsep⟩
  · refine inStep_of_closed ?_
    simp [send, hclosed]
  · have hsame : (page.send (changes.map .socket)).readyState = page.readyState ∧
        (page.send (changes.map .socket)).agent = page.agent := by
      simp [send, hopen]
    refine ⟨fun hc => ?_, fun _ => hsame.2 ▸ h.session hopen, fun _ a ha c => ?_⟩
    · rw [hsame.1, hopen] at hc
      cases hc
    · have ha : a ∈ page.agent := hsame.2 ▸ ha
      change c ∈ (GWEMS.runAll a g (page.send (changes.map .socket)).pending).channels a ↔ _
      rw [pending_send hopen, filterMap_socket?, GWEMS.runAll, List.foldl_append, ← GWEMS.runAll,
        ← GWEMS.runAll]
      exact (hsep a ha).mem_wanted (h.told (by simp [hopen]) a ha) c

/-- A text changes nothing of what is pending. -/
theorem InStep.handleSendText (h : InStep g page) (theAlwaysTags str : String) :
    InStep g (page.handleSendText theAlwaysTags str) := by
  rw [ChatPage.handleSendText]
  split
  next => exact h
  next =>
    by_cases hopen : page.readyState = .opened
    · have hnone : ∀ (keys : List String) (f : String → PageMessage),
          (∀ key, (f key).socket? = none) → (keys.map f).filterMap PageMessage.socket? = [] := by
        intro keys f hf
        simp [hf]
      refine ⟨fun hc => ?_, fun _ => ?_, fun _ a ha c => ?_⟩
      · simp [send, hopen] at hc
      · simpa [send, hopen] using h.session hopen
      · rw [pending_send hopen, hnone _ _ fun _ => rfl, List.append_nil]
        rw [send, if_pos hopen] at ha ⊢
        exact h.told (by simp [hopen]) a ha c
    · rwa [send, if_neg hopen]

/-- What stays the same when a line comes in. -/
theorem InStep.incoming (h : InStep g page) (arrived : ℕ) (log : List ℕ) :
    InStep g { page with arrived := arrived, log := log } :=
  ⟨h.connecting, h.session, h.told⟩

/-- A line that comes in changes the log and nothing else. -/
theorem handleIncomingMessage_eq (dom : Dom) (page : ChatPage) (obj : ChatLine) :
    page.handleIncomingMessage dom obj =
      { page with log := (page.handleIncomingMessage dom obj).log } := by
  simp only [handleIncomingMessage, logincoming, prepend]
  split <;> rfl

/-- What becomes of the log does not depend on the rest of the page. -/
theorem log_handleIncomingMessage {q : ChatPage} (dom : Dom) (h : page.log = q.log)
    (obj : ChatLine) :
    (page.handleIncomingMessage dom obj).log = (q.handleIncomingMessage dom obj).log := by
  simp only [handleIncomingMessage, logincoming, prepend, h]
  split <;> simp [h]

/-- A page that has sent something is connected. -/
theorem InStep.pending_of_sent (h : InStep g page) {message : PageMessage}
    {sent : List PageMessage} (hsent : page.sent = message :: sent) :
    page.readyState ≠ .connecting ∧
      page.pending = message.socket?.toList ++ { page with sent := sent }.pending := by
  have hstate : page.readyState ≠ .connecting := by
    intro hc
    rw [(h.connecting hc).1] at hsent
    cases hsent
  refine ⟨hstate, ?_⟩
  cases message <;> simp [pending, hsent, hstate, PageMessage.socket?, List.filterMap_cons]

/-- The server runs the first message of the page. -/
theorem InStep.run_socket (h : InStep g page) {message : SocketMessage} {sent : List PageMessage}
    (hsent : page.sent = .socket message :: sent) (ha : a ∈ page.agent) :
    InStep (GWEMS.run a g message) { page with sent := sent } := by
  obtain ⟨hstate, hpending⟩ := h.pending_of_sent hsent
  refine ⟨fun hc => absurd hc hstate, h.session, fun hopen b hb c => ?_⟩
  obtain rfl : a = b := Option.mem_unique ha hb
  have htold := h.told hopen a ha c
  rwa [hpending] at htold

/-- A line that the server publishes does not count. -/
theorem InStep.run_publish (h : InStep g page) {channel : String} {msg : ChatLine}
    {sent : List PageMessage} (hsent : page.sent = .publish channel msg :: sent) :
    InStep g { page with sent := sent } := by
  obtain ⟨hstate, hpending⟩ := h.pending_of_sent hsent
  refine ⟨fun hc => absurd hc hstate, h.session, fun hopen b hb c => ?_⟩
  have htold := h.told hopen b hb c
  rwa [hpending] at htold

end ChatPage

end Gwems
