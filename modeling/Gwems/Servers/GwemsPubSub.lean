import Gwems.Servers.Link

/-!
# `GwemsPubSub`: handing commands to the web socket client

`subcribe`, `unsubcribe` and `publish` of a `GwemsPubSub` serialize a command and offer the
string to `commands4serverQ`, a queue of 16 places, waiting at most 100 ms for a free one. The
client's polling loop takes the strings out and writes them to its channel; it starts after the
handshake and moves when it is scheduled. `Global.subscribe` calls `subcribe` for the first
local agent of a channel and then records the agent.

Nobody looks at what `offer` returns, so a string that finds no place in time is dropped, and
`Global.subscribe` records the agent all the same (`commands_lost`). Nobody looks at the future of
a write either, and the loop goes on when the channel is closed: by the frame that the server sends
when the session expires, by an exception, or by the connection. `commands_conveyed_iff` says that
these, a stop with strings in the queue, an interrupted `offer`, and a message that Jackson cannot
write are the only ways to lose a command.

Jackson is the parameter `serialize`, `none` where it throws a `JsonProcessingException`; all
that is used of it is that an object is written with a brace in front and names the class of its
command, so a command is never taken for the words "bye" and "ping" that the polling loop gives a
meaning of their own, nor for the message that the constructor enqueues.
-/

namespace Gwems

variable {M : Type*}

/-- What the client writes to the socket. -/
inductive Frame
  | text (msg : String)
  | ping
  | close
deriving DecidableEq

/-- Where the thread of `startUp` is: waiting for the handshake, at the test of `while (running)`,
in the `poll` behind it, or at its end. -/
inductive PollingLoop
  | starting
  | testing
  | polling
  | left
deriving DecidableEq

/-- How a timed `offer` ends: accepted, refused because the queue has stayed full, or with an
`InterruptedException`. -/
inductive Offer
  | accepted
  | timedOut
  | interrupted
deriving DecidableEq

/-! ### The client -/

/-- The web socket client with its channel `ch`: the strings to write, the frames that the channel
was given to write, and those it has written. -/
structure WsClientImpl where
  running : Bool := true
  commands4serverQ : List String := []
  pollingLoop : PollingLoop := .starting
  isOpen : Bool := true
  writes : List Frame := []
  sent : List Frame := []
deriving DecidableEq

namespace WsClientImpl

/-- The places of `new ArrayBlockingQueue<String>(16)`. -/
def capacity : ℕ := 16

/-- `enqueueString(s)`: an offer is accepted only while there is a place, and times out only
while there is none. Its result is not looked at. -/
def enqueueString (w : WsClientImpl) (s : String) : Offer → Option WsClientImpl
  | .accepted =>
    if w.commands4serverQ.length < capacity then
      some { w with commands4serverQ := w.commands4serverQ ++ [s] }
    else none
  | .timedOut => if w.commands4serverQ.length < capacity then none else some w
  | .interrupted => some w

/-- `enqueueRunnable(message)`: the exception of a message that cannot be written is logged. -/
def enqueueRunnable (serialize : Command M → Option String) (w : WsClientImpl)
    (message : Command M) (o : Offer) : Option WsClientImpl :=
  match serialize message with
  | some s => w.enqueueString s o
  | none => some w

/-- `toLowerCase()`, as far as a comparison with a lower case ASCII word can tell. -/
def toLowerCase (s : String) : List Char := s.toList.map Char.toLower

/-- `ch.writeAndFlush(frame)`: the channel writes later; when it is closed, the future fails. -/
def writeAndFlush (w : WsClientImpl) (frame : Frame) : WsClientImpl :=
  if w.isOpen then { w with writes := w.writes ++ [frame] } else w

/-- What the client's threads and its connection do: the handshake completes; the loop tests
`running`; its `poll` takes a string, or gets `null` after a millisecond or an exception; the
channel writes a frame, or is closed; and `stop()`. -/
inductive Action
  | connect
  | test
  | take
  | idle
  | flush
  | close
  | stop
deriving DecidableEq

/-- A turn of `pollingLoop` that has taken `msg`. -/
def turn (w : WsClientImpl) (msg : String) : WsClientImpl :=
  if toLowerCase msg = "bye".toList then { w.writeAndFlush .close with pollingLoop := .left }
  else if toLowerCase msg = "ping".toList then
    { w.writeAndFlush .ping with pollingLoop := .testing }
  else { w.writeAndFlush (.text msg) with pollingLoop := .testing }

/-- One step of the client. -/
def step (w : WsClientImpl) : Action → Option WsClientImpl
  | .connect =>
    if w.pollingLoop = .starting ∧ w.isOpen then some { w with pollingLoop := .testing } else none
  | .test =>
    if w.pollingLoop = .testing then
      some { w with pollingLoop := if w.running then .polling else .left }
    else none
  | .take =>
    match w.pollingLoop, w.commands4serverQ with
    | .polling, msg :: q => some (turn { w with commands4serverQ := q } msg)
    | _, _ => none
  | .idle => if w.pollingLoop = .polling then some { w with pollingLoop := .testing } else none
  | .flush =>
    match w.isOpen, w.writes with
    | true, frame :: writes => some { w with writes := writes, sent := w.sent ++ [frame] }
    | _, _ => none
  | .close => some { w with isOpen := false, writes := [] }
  | .stop => some { w with running := false }

/-- What the constructor enqueues: "the ack won't arrive unless we say something first". -/
def live : String := "\x7b\"@\":\"Live\"\x7d"

/-- A new client. -/
def new : WsClientImpl := { commands4serverQ := [live] }

/-- The strings in the queue that a loop is there to take. -/
def queued (w : WsClientImpl) : List Frame :=
  if w.pollingLoop = .left then [] else w.commands4serverQ.map .text

/-- The frames that still wait for the channel: a closed one writes nothing any more. -/
def waiting (w : WsClientImpl) : List Frame := if w.isOpen then w.writes ++ w.queued else []

/-- The frames written and those that wait. -/
def output (w : WsClientImpl) : List Frame := w.sent ++ w.waiting

/-- The frames of commands among them: all but the constructor's. -/
def commands (w : WsClientImpl) : List Frame := w.output.filter (· ≠ .text live)

/-- A string in the queue will be written: the channel is open, and the loop has not ended. -/
def Serves (w : WsClientImpl) : Prop := w.isOpen = true ∧ w.pollingLoop ≠ .left

instance (w : WsClientImpl) : Decidable w.Serves := inferInstanceAs (Decidable (_ ∧ _))

/-- The frames that a step gives up: all that wait when the channel is closed, and those in the
queue when the loop ends. -/
def lost (w : WsClientImpl) : Action → List Frame
  | .close => w.waiting
  | .test => if w.running ∨ ¬w.isOpen then [] else w.commands4serverQ.map .text
  | .connect | .take | .idle | .flush | .stop => []

/-- A step that gives up no command: at most the constructor's message. -/
def Keeps (w : WsClientImpl) (a : Action) : Prop := ∀ f ∈ w.lost a, f = .text live

instance (w : WsClientImpl) (a : Action) : Decidable (w.Keeps a) :=
  inferInstanceAs (Decidable (∀ f ∈ w.lost a, _))

/-- A string written by Jackson for an object. -/
def IsObject (s : String) : Prop := s.toList.head? = some '\x7b'

instance (s : String) : Decidable (IsObject s) := inferInstanceAs (Decidable (_ = _))

variable {w w' : WsClientImpl} {s : String} {o : Offer}

theorem toLowerCase_ne_of_isObject (h : IsObject s) {word : String}
    (hword : word.toList.head? ≠ some '\x7b') : toLowerCase s ≠ word.toList := by
  intro heq
  apply hword
  rw [← heq, toLowerCase, List.head?_map, h]
  rfl

/-- An object is written as a text. -/
theorem turn_of_isObject (h : IsObject s) :
    w.turn s = { w.writeAndFlush (.text s) with pollingLoop := .testing } := by
  rw [turn, if_neg (toLowerCase_ne_of_isObject h (by decide)),
    if_neg (toLowerCase_ne_of_isObject h (by decide))]

/-- An offer appends the string to the output if it is accepted and will be written, and changes
nothing if not. -/
theorem output_enqueueString (h : w.enqueueString s o = some w') :
    w'.output = w.output ++ if o = .accepted ∧ w.Serves then [.text s] else [] := by
  cases o with
  | accepted =>
    simp only [enqueueString] at h
    split at h
    next =>
      rw [← Option.some.inj h]
      simp only [output, waiting, queued, Serves, true_and]
      split
      next hopen =>
        split
        next hleft => simp [hleft]
        next hleft => simp [hopen, hleft]
      next hopen => simp [hopen]
    next => cases h
  | timedOut =>
    simp only [enqueueString] at h
    split at h
    next => cases h
    next => rw [← Option.some.inj h]; simp
  | interrupted => rw [← Option.some.inj h]; simp

/-- A message handed to the client is output if it can be written and its offer is accepted by a
client that serves. -/
theorem commands_enqueueRunnable {serialize : Command M → Option String} {message : Command M}
    (hlive : serialize message ≠ some live)
    (h : w.enqueueRunnable serialize message o = some w') :
    w'.commands = w.commands ++
      if o = .accepted ∧ w.Serves then (serialize message).toList.map .text else [] := by
  rw [enqueueRunnable] at h
  split at h
  next s hs =>
    have hne : s ≠ live := fun heq => hlive (heq ▸ hs)
    rw [commands, output_enqueueString h, List.filter_append, hs, commands]
    split <;> simp [hne]
  next hs => rw [← Option.some.inj h, hs]; simp

/-- The queue holds nothing but strings that Jackson has written. -/
theorem mem_enqueueRunnable {serialize : Command M → Option String} {message : Command M}
    (h : w.enqueueRunnable serialize message o = some w') (hs : s ∈ w'.commands4serverQ) :
    s ∈ w.commands4serverQ ∨ serialize message = some s := by
  rw [enqueueRunnable] at h
  split at h
  next str hstr =>
    cases o <;> simp only [enqueueString] at h <;> (try split at h) <;> cases h
    · rcases List.mem_append.mp hs with hs | hs
      · exact .inl hs
      · exact .inr (List.mem_singleton.mp hs ▸ hstr)
    all_goals exact .inl hs
  next => cases h; exact .inl hs

theorem writeAndFlush_queue (frame : Frame) :
    (w.writeAndFlush frame).commands4serverQ = w.commands4serverQ := by
  rw [writeAndFlush]
  split <;> rfl

/-- A string that the loop takes goes from the queue to the channel. -/
theorem output_take (hobject : ∀ msg ∈ w.commands4serverQ, IsObject msg)
    (h : w.step .take = some w') :
    w'.output = w.output ∧ w'.commands4serverQ = w.commands4serverQ.tail := by
  simp only [step] at h
  split at h
  next msg q hloop hq =>
    rw [turn_of_isObject (hobject msg (hq ▸ List.mem_cons_self))] at h
    rw [← Option.some.inj h]
    constructor
    · cases hopen : w.isOpen <;> simp [output, waiting, queued, writeAndFlush, hopen, hloop, hq]
    · rw [hq, List.tail_cons]
      exact writeAndFlush_queue _
  next => cases h

/-- No step of the client puts a string into the queue. -/
theorem mem_step {a : Action} (hobject : ∀ msg ∈ w.commands4serverQ, IsObject msg)
    (h : w.step a = some w') (hs : s ∈ w'.commands4serverQ) : s ∈ w.commands4serverQ := by
  cases a with
  | take =>
    rw [(output_take hobject h).2] at hs
    exact List.mem_of_mem_tail hs
  | connect | test | idle =>
    simp only [step] at h
    split at h
    · rwa [← Option.some.inj h] at hs
    · cases h
  | flush =>
    simp only [step] at h
    split at h
    · rwa [← Option.some.inj h] at hs
    · cases h
  | close | stop => rwa [← Option.some.inj h] at hs

/-- What a step of the client takes out of the output is what it gives up. -/
theorem output_step {a : Action} (hobject : ∀ msg ∈ w.commands4serverQ, IsObject msg)
    (h : w.step a = some w') : w.output = w'.output ++ w.lost a := by
  cases a with
  | connect =>
    simp only [step] at h
    split at h
    next hstart => rw [← Option.some.inj h]; simp [lost, output, waiting, queued, hstart.1]
    next => cases h
  | test =>
    simp only [step] at h
    split at h
    next htest =>
      rw [← Option.some.inj h]
      cases hrunning : w.running <;> cases hopen : w.isOpen <;>
        simp [lost, output, waiting, queued, hrunning, hopen, htest]
    next => cases h
  | take => rw [(output_take hobject h).1, lost, List.append_nil]
  | idle =>
    simp only [step] at h
    split at h
    next hpoll => rw [← Option.some.inj h]; simp [lost, output, waiting, queued, hpoll]
    next => cases h
  | flush =>
    simp only [step] at h
    split at h
    next frame writes hopen hwrites =>
      rw [← Option.some.inj h]
      simp [lost, output, waiting, queued, hopen, hwrites]
    next => cases h
  | close => rw [← Option.some.inj h]; simp [lost, output, waiting]
  | stop => rw [← Option.some.inj h]; simp [lost, output, waiting, queued]

/-- **What a step of the client does to the commands**: nothing if it keeps them, and it takes some
away if it does not. -/
theorem commands_step {a : Action} (hobject : ∀ msg ∈ w.commands4serverQ, IsObject msg)
    (h : w.step a = some w') :
    w.Keeps a ∧ w'.commands = w.commands ∨
      ¬w.Keeps a ∧ w'.commands.length < w.commands.length := by
  have hcommands : w.commands = w'.commands ++ (w.lost a).filter (· ≠ .text live) := by
    rw [commands, output_step hobject h, List.filter_append, commands]
  by_cases hkeeps : w.Keeps a
  · left
    have hnone : (w.lost a).filter (· ≠ .text live) = [] :=
      List.filter_eq_nil_iff.mpr fun f hf => by simpa using hkeeps f hf
    exact ⟨hkeeps, by rw [hcommands, hnone, List.append_nil]⟩
  · right
    rw [Keeps, not_forall₂] at hkeeps
    obtain ⟨f, hf, hne⟩ := hkeeps
    have hpos : 0 < ((w.lost a).filter (· ≠ .text live)).length :=
      List.length_pos_of_mem (List.mem_filter.mpr ⟨hf, by simpa using hne⟩)
    refine ⟨fun hkeeps => hne (hkeeps f hf), ?_⟩
    rw [hcommands, List.length_append]
    omega

end WsClientImpl

/-! ### The calls -/

/-- A call on the link, or `Global.subscribe` of the server it belongs to. -/
inductive LinkCall (M : Type*)
  | subcribe (channels : List String)
  | unsubcribe (channels : List String)
  | publish (channel : String) (message : M)
  | subscribe (agent : Agent) (channel : String)

/-- A call in progress: the messages still to hand to the client, and the pair
`Global.subscribe` will record afterwards. -/
structure Progress (M : Type*) where
  messages : List (Command M)
  record : Option (Agent × String) := none
deriving DecidableEq

/-- A link with its server's subscriptions, the call in progress, and the messages handed to the
client so far, in call order. -/
structure GwemsPubSub (M : Type*) where
  client : WsClientImpl := .new
  session2channel : SessionMap := .empty
  progress : Option (Progress M) := none
  handed : List (Command M) := []

namespace GwemsPubSub

/-- The messages of a call, one for each channel; `Global.subscribe` calls `subcribe` only when
it finds the channel empty, and ignores an empty name. -/
def start (p : GwemsPubSub M) : LinkCall M → Progress M
  | .subcribe channels => { messages := channels.map .sub }
  | .unsubcribe channels => { messages := channels.map .unsub }
  | .publish channel message => { messages := [.pub channel message] }
  | .subscribe agent channel =>
    if channel.length = 0 then { messages := [] }
    else if (p.session2channel.thing2items_get channel).isEmpty then
      { messages := [.sub channel], record := some (agent, channel) }
    else { messages := [], record := some (agent, channel) }

/-- What can happen next: a call begins, its next message is handed to the client, it returns, or
something happens to the client. -/
inductive Action (M : Type*)
  | call (call : LinkCall M)
  | hand (o : Offer)
  | finish
  | client (a : WsClientImpl.Action)

variable (serialize : Command M → Option String)

/-- Sequential calls, interleaved with the steps of the client. -/
def machine : Machine (GwemsPubSub M) (Action M) where
  step p
    | .call call =>
      match p.progress with
      | none => some { p with progress := some (p.start call) }
      | some _ => none
    | .hand o =>
      match p.progress with
      | some ⟨message :: messages, record⟩ =>
        (p.client.enqueueRunnable serialize message o).map fun client =>
          { p with
            client := client
            progress := some ⟨messages, record⟩
            handed := p.handed ++ [message] }
      | _ => none
    | .finish =>
      match p.progress with
      | some ⟨[], none⟩ => some { p with progress := none }
      -- the agent is recorded, whatever became of the `Sub`
      | some ⟨[], some (agent, channel)⟩ => some { p with
          progress := none
          session2channel := p.session2channel.add (some agent) (some channel) }
      | _ => none
    | .client a => (p.client.step a).map fun client => { p with client := client }

/-- Jackson writes an object, which names the class of its message. -/
def WritesCommands : Prop :=
  ∀ message s, serialize message = some s → WsClientImpl.IsObject s ∧ s ≠ WsClientImpl.live

/-- Nothing is given up: a message can be written, and its offer is accepted by a client that
serves; and the client keeps what waits. -/
def Keeps (p : GwemsPubSub M) : Action M → Prop
  | .hand o => (o = .accepted ∧ p.client.Serves) ∧
    ∀ progress ∈ p.progress, ∀ message ∈ progress.messages.head?, (serialize message).isSome
  | .client a => p.client.Keeps a
  | .call _ | .finish => True

instance (p : GwemsPubSub M) (a : Action M) : Decidable (Keeps serialize p a) :=
  match a with
  | .hand o => inferInstanceAs (Decidable ((o = .accepted ∧ p.client.Serves) ∧
      ∀ progress ∈ p.progress, ∀ message ∈ progress.messages.head?, (serialize message).isSome))
  | .client a => inferInstanceAs (Decidable (p.client.Keeps a))
  | .call _ | .finish => isTrue trivial

/-- A step of the polling loop, or of the channel that writes. -/
def OfLoop (_ : GwemsPubSub M) (a : Action M) : Prop :=
  a ∈ [.client .test, .client .take, .client .flush]

/-- The frame of a message. -/
def frame (message : Command M) : Option Frame := (serialize message).map .text

/-- The link conveys everything: the commands written to the socket and those that still wait for it
are the messages of the calls, each once and in call order; and a channel with a recorded subscriber
has its `Sub` among them. -/
structure Conveyed (p : GwemsPubSub M) : Prop where
  in_order : p.client.commands.map some = p.handed.map (frame serialize)
  sub_queued : ∀ c, p.session2channel.Occupied c →
    ∃ f ∈ p.client.commands, frame serialize (.sub c) = some f

variable {serialize} {p p' : GwemsPubSub M}

theorem WritesCommands.ne_live (hser : WritesCommands serialize) (message : Command M) :
    serialize message ≠ some WsClientImpl.live :=
  fun h => (hser message _ h).2 rfl

/-- What one step can do. -/
theorem step_cases {a : Action M} (h : (machine serialize).step p a = some p') :
    (∃ call, a = .call call ∧ p.progress = none ∧ p' = { p with progress := some (p.start call) }) ∨
      (∃ o message messages record client, a = .hand o ∧
        p.progress = some ⟨message :: messages, record⟩ ∧
        p.client.enqueueRunnable serialize message o = some client ∧
        p' = { p with
          client := client
          progress := some ⟨messages, record⟩
          handed := p.handed ++ [message] }) ∨
      (a = .finish ∧ p.progress = some ⟨[], none⟩ ∧ p' = { p with progress := none }) ∨
      (∃ agent channel, a = .finish ∧ p.progress = some ⟨[], some (agent, channel)⟩ ∧ p' = { p with
          progress := none
          session2channel := p.session2channel.add (some agent) (some channel) }) ∨
      ∃ c client, a = .client c ∧ p.client.step c = some client ∧
        p' = { p with client := client } := by
  cases a with
  | call call =>
    simp only [machine] at h
    split at h
    next hnone => exact .inl ⟨call, rfl, hnone, (Option.some.inj h).symm⟩
    next => cases h
  | hand o =>
    simp only [machine] at h
    split at h
    next message messages record hprogress =>
      obtain ⟨client, hclient, rfl⟩ := Option.map_eq_some_iff.mp h
      exact .inr (.inl ⟨o, message, messages, record, client, rfl, hprogress, hclient, rfl⟩)
    next => cases h
  | finish =>
    simp only [machine] at h
    split at h
    next hprogress => exact .inr (.inr (.inl ⟨rfl, hprogress, (Option.some.inj h).symm⟩))
    next agent channel hprogress =>
      exact .inr (.inr (.inr (.inl ⟨agent, channel, rfl, hprogress, (Option.some.inj h).symm⟩)))
    next => cases h
  | client c =>
    obtain ⟨client, hclient, rfl⟩ := Option.map_eq_some_iff.mp h
    exact .inr (.inr (.inr (.inr ⟨c, client, rfl, hclient, rfl⟩)))

/-! ### Every run -/

/-- What holds in every run: every string in the queue is an object, and no more commands are
output than messages were handed over. -/
structure Sound (p : GwemsPubSub M) : Prop where
  objects : ∀ msg ∈ p.client.commands4serverQ, WsClientImpl.IsObject msg
  count : p.client.commands.length ≤ p.handed.length

/-- Fewer commands are output than messages were handed over. -/
def Lossy (p : GwemsPubSub M) : Prop := p.client.commands.length < p.handed.length

theorem sound_init : Sound ({} : GwemsPubSub M) where
  objects msg hmsg := by
    rw [List.mem_singleton.mp hmsg]
    decide
  count := le_rfl

section Steps

variable {a : Action M}

/-- A step that gives nothing up outputs nothing, or hands one message over. Any other outputs less
than it hands over. -/
theorem commands_step (hser : WritesCommands serialize)
    (hobject : ∀ msg ∈ p.client.commands4serverQ, WsClientImpl.IsObject msg)
    (h : (machine serialize).step p a = some p') :
    (Keeps serialize p a ∧ p'.client.commands.length + p.handed.length =
        p.client.commands.length + p'.handed.length) ∨
      ¬Keeps serialize p a ∧ p'.client.commands.length + p.handed.length <
        p.client.commands.length + p'.handed.length := by
  obtain ⟨call, rfl, -, rfl⟩ |
    ⟨o, message, messages, record, client, rfl, hprogress, hclient, rfl⟩ | ⟨rfl, -, rfl⟩ |
    ⟨agent, channel, rfl, -, rfl⟩ | ⟨c, client, rfl, hclient, rfl⟩ := step_cases h
  · exact .inl ⟨trivial, rfl⟩
  · have hout := WsClientImpl.commands_enqueueRunnable (hser.ne_live message) hclient
    have hkeeps : Keeps serialize p (.hand o) ↔
        (o = .accepted ∧ p.client.Serves) ∧ (serialize message).isSome := by
      simp [Keeps, hprogress]
    simp only [hkeeps]
    rw [hout]
    by_cases hgood : o = .accepted ∧ p.client.Serves
    · cases hs : serialize message with
      | none => simp [hgood]
      | some s =>
        rw [if_pos hgood]
        simp only [Option.isSome_some, Option.toList_some, List.map_cons, List.map_nil,
          List.length_append, List.length_singleton]
        exact .inl ⟨⟨hgood, trivial⟩, by omega⟩
    · simp [hgood]
  · exact .inl ⟨trivial, rfl⟩
  · exact .inl ⟨trivial, rfl⟩
  · rcases WsClientImpl.commands_step hobject hclient with ⟨hkeeps, hout⟩ | ⟨hkeeps, hless⟩
    · exact .inl ⟨hkeeps, by rw [hout]⟩
    · exact .inr ⟨hkeeps, Nat.add_lt_add_right hless _⟩

theorem Sound.step (hser : WritesCommands serialize)
    (hp : p.Sound) (h : (machine serialize).step p a = some p') : p'.Sound := by
  constructor
  · intro msg hmsg
    obtain ⟨call, -, -, rfl⟩ | ⟨o, message, messages, record, client, -, -, hclient, rfl⟩ |
      ⟨-, -, rfl⟩ | ⟨agent, channel, -, -, rfl⟩ | ⟨c, client, -, hclient, rfl⟩ := step_cases h
    · exact hp.objects msg hmsg
    · rcases WsClientImpl.mem_enqueueRunnable hclient hmsg with hmsg | hmsg
      · exact hp.objects msg hmsg
      · exact (hser message msg hmsg).1
    · exact hp.objects msg hmsg
    · exact hp.objects msg hmsg
    · exact hp.objects msg (WsClientImpl.mem_step hp.objects hclient hmsg)
  · have hcount := hp.count
    rcases commands_step hser hp.objects h with ⟨-, hstep⟩ | ⟨-, hstep⟩ <;> omega

/-- What is lost stays lost. -/
theorem Lossy.step (hser : WritesCommands serialize) (hlossy : p.Lossy) (hp : p.Sound)
    (h : (machine serialize).step p a = some p') : p'.Lossy := by
  rw [Lossy] at hlossy ⊢
  rcases commands_step hser hp.objects h with ⟨-, hstep⟩ | ⟨-, hstep⟩ <;> omega

/-- A step that gives something up loses it. -/
theorem lossy_of_not_keeps (hser : WritesCommands serialize) (hp : p.Sound)
    (ha : ¬Keeps serialize p a) (h : (machine serialize).step p a = some p') : p'.Lossy := by
  have hcount := hp.count
  rw [Lossy]
  rcases commands_step hser hp.objects h with ⟨hkeeps, -⟩ | ⟨-, hstep⟩
  · exact absurd hkeeps ha
  · omega

/-! ### Runs that give nothing up -/

/-- The link conveys everything, and a call in progress that will record a channel still has its
`Sub` to hand over, or has it output already. -/
structure Faithful (serialize : Command M → Option String) (p : GwemsPubSub M) : Prop where
  conveyed : Conveyed serialize p
  recording : ∀ messages agent channel, p.progress = some ⟨messages, some (agent, channel)⟩ →
    .sub channel ∈ messages ∨ ∃ f ∈ p.client.commands, frame serialize (.sub channel) = some f

theorem faithful_init : Faithful serialize {} where
  conveyed := ⟨rfl, fun _ hc => absurd hc SessionMap.not_occupied_empty⟩
  recording := nofun

theorem Faithful.call (hp : Faithful serialize p) (call : LinkCall M) :
    Faithful serialize { p with progress := some (p.start call) } := by
  refine ⟨⟨hp.conveyed.in_order, hp.conveyed.sub_queued⟩, fun messages agent channel hstart => ?_⟩
  have hstart := Option.some.inj hstart
  cases call with
  | subscribe a _ =>
    simp only [start] at hstart
    split at hstart
    next => cases hstart
    next =>
      split at hstart
      next hempty => cases hstart; exact .inl List.mem_cons_self
      next hsome =>
        cases hstart
        rw [← SessionMap.not_occupied_iff, not_not] at hsome
        exact .inr (hp.conveyed.sub_queued _ hsome)
  | subcribe | unsubcribe | publish => cases hstart

/-- A message handed over for good is output behind everything else. -/
theorem Faithful.hand (hser : WritesCommands serialize) (hp : Faithful serialize p)
    {message : Command M} {messages : List (Command M)} {record : Option (Agent × String)}
    {client : WsClientImpl}
    (hprogress : p.progress = some ⟨message :: messages, record⟩)
    (hclient : p.client.enqueueRunnable serialize message .accepted = some client)
    (hserves : p.client.Serves) (hmessage : (serialize message).isSome) :
    Faithful serialize { p with
      client := client
      progress := some ⟨messages, record⟩
      handed := p.handed ++ [message] } := by
  obtain ⟨s, hs⟩ := Option.isSome_iff_exists.mp hmessage
  have hout : client.commands = p.client.commands ++ [.text s] := by
    rw [WsClientImpl.commands_enqueueRunnable (hser.ne_live message) hclient,
      if_pos ⟨rfl, hserves⟩, hs]
    rfl
  have hmono : ∀ c, (∃ f ∈ p.client.commands, frame serialize (.sub c) = some f) →
      ∃ f ∈ client.commands, frame serialize (.sub c) = some f := by
    rintro c ⟨f, hf, hframe⟩
    exact ⟨f, hout ▸ List.mem_append_left _ hf, hframe⟩
  refine ⟨⟨?_, fun c hc => hmono c (hp.conveyed.sub_queued c hc)⟩, ?_⟩
  · rw [hout, List.map_append, hp.conveyed.in_order, List.map_append]
    simp [frame, hs]
  · intro rest agent channel hrest
    cases hrest
    rcases hp.recording _ _ _ hprogress with hmem | hmem
    · -- the `Sub` may be the message that is handed over now
      rcases List.mem_cons.mp hmem with rfl | hmem
      · refine .inr ⟨.text s, hout ▸ List.mem_append_right _ List.mem_cons_self, ?_⟩
        rw [frame, hs]
        rfl
      · exact .inl hmem
    · exact .inr (hmono channel hmem)

/-- Returning from `Global.subscribe` records the channel whose `Sub` is output. -/
theorem Faithful.record (hp : Faithful serialize p) {agent : Agent} {channel : String}
    (hprogress : p.progress = some ⟨[], some (agent, channel)⟩) :
    Faithful serialize { p with
      progress := none
      session2channel := p.session2channel.add (some agent) (some channel) } := by
  refine ⟨⟨hp.conveyed.in_order, fun c hc => ?_⟩, nofun⟩
  rcases SessionMap.occupied_add.mp hc with hc | rfl
  · exact hp.conveyed.sub_queued c hc
  · exact (hp.recording _ _ _ hprogress).resolve_left List.not_mem_nil

theorem Faithful.step (hser : WritesCommands serialize) (hp : Faithful serialize p)
    (hsound : p.Sound) (ha : Keeps serialize p a) (h : (machine serialize).step p a = some p') :
    Faithful serialize p' := by
  obtain ⟨call, rfl, -, rfl⟩ |
    ⟨o, message, messages, record, client, rfl, hprogress, hclient, rfl⟩ | ⟨rfl, -, rfl⟩ |
    ⟨agent, channel, rfl, hprogress, rfl⟩ | ⟨c, client, rfl, hclient, rfl⟩ := step_cases h
  · exact hp.call call
  · obtain ⟨⟨rfl, hserves⟩, hsome⟩ := ha
    exact hp.hand hser hprogress hclient hserves (hsome _ hprogress _ rfl)
  · exact ⟨⟨hp.conveyed.in_order, hp.conveyed.sub_queued⟩, nofun⟩
  · exact hp.record hprogress
  · rcases WsClientImpl.commands_step hsound.objects hclient with ⟨-, hout⟩ | ⟨hkeeps, -⟩
    · exact ⟨⟨hout ▸ hp.conveyed.in_order, fun c hc => hout ▸ hp.conveyed.sub_queued c hc⟩,
        fun messages agent channel hrec => hout ▸ hp.recording messages agent channel hrec⟩
    · exact absurd ha hkeeps

end Steps

/-! ### A loop that runs -/

/-- The loop is running, and its channel open. -/
structure Running (w : WsClientImpl) : Prop where
  running : w.running = true
  isOpen : w.isOpen = true
  loop : w.pollingLoop = .testing ∨ w.pollingLoop = .polling

/-- What loop and channel have to do before all strings are written. -/
def work (w : WsClientImpl) : ℕ :=
  3 * w.commands4serverQ.length + w.writes.length + if w.pollingLoop = .testing then 1 else 0

/-- As long as something waits, loop and channel have a step that brings it closer to the socket. -/
theorem exists_step {w : WsClientImpl}
    (hobject : ∀ msg ∈ w.commands4serverQ, WsClientImpl.IsObject msg) (hw : Running w)
    (hwait : w.waiting ≠ []) :
    ∃ c ∈ [WsClientImpl.Action.test, .take, .flush], ∃ w', w.step c = some w' ∧ Running w' ∧
      w.lost c = [] ∧ work w' < work w := by
  cases hwrites : w.writes with
  | cons frame writes =>
    refine ⟨.flush, by decide, { w with writes := writes, sent := w.sent ++ [frame] }, ?_,
      ⟨hw.running, hw.isOpen, hw.loop⟩, rfl, ?_⟩
    · simp only [WsClientImpl.step, hw.isOpen, hwrites]
    · simp only [work, hwrites, List.length_cons]
      omega
  | nil =>
    rcases hw.loop with hloop | hloop
    · refine ⟨.test, by decide, { w with pollingLoop := .polling }, ?_,
        ⟨hw.running, hw.isOpen, .inr rfl⟩, if_pos (.inl hw.running), ?_⟩
      · simp only [WsClientImpl.step, hloop, hw.running, if_true]
      · simp [work, hloop]
    · cases hq : w.commands4serverQ with
      | nil => exact absurd (by simp [WsClientImpl.waiting, WsClientImpl.queued, hwrites, hq]) hwait
      | cons msg q =>
        have hmsg : WsClientImpl.IsObject msg := hobject msg (hq ▸ List.mem_cons_self)
        refine ⟨.take, by decide, { w with
          commands4serverQ := q, pollingLoop := .testing, writes := [.text msg] }, ?_,
          ⟨hw.running, hw.isOpen, .inl rfl⟩, rfl, ?_⟩
        · simp only [WsClientImpl.step, hloop, hq]
          rw [WsClientImpl.turn_of_isObject hmsg]
          simp [WsClientImpl.writeAndFlush, hw.isOpen, hwrites]
        · simp only [work, hq, hloop, hwrites, List.length_cons, List.length_nil]
          simp only [if_true, reduceCtorEq, if_false]
          omega

/-- A running loop writes what waits: its steps, and those of the channel, lead to a state in which
nothing waits any more and the output is the same. -/
theorem exists_runs_written
    (hobject : ∀ msg ∈ p.client.commands4serverQ, WsClientImpl.IsObject msg)
    (hrunning : Running p.client) :
    ∃ client, (machine serialize).Runs OfLoop p { p with client := client } ∧
      client.waiting = [] ∧ client.output = p.client.output := by
  induction hn : work p.client using Nat.strong_induction_on generalizing p with
  | _ n ih =>
    by_cases hwait : p.client.waiting = []
    · exact ⟨p.client, .refl, hwait, rfl⟩
    · obtain ⟨c, hc, w, hstep, hrunning', hlost, hwork⟩ := exists_step hobject hrunning hwait
      obtain ⟨client, hruns, hwritten, hsame⟩ := ih _ (hn ▸ hwork) (p := { p with client := w })
        (fun msg hmsg => hobject msg (WsClientImpl.mem_step hobject hstep hmsg)) hrunning' rfl
      have hout : p.client.output = w.output := by
        rw [WsClientImpl.output_step hobject hstep, hlost, List.append_nil]
      refine ⟨client, .head (a := .client c) ?_ ?_ hruns, hwritten, hsame.trans hout.symm⟩
      · simpa [OfLoop] using hc
      · simp only [machine, hstep, Option.map_some]

/-- **Commands are conveyed exactly when nothing is given up.** In every run of calls and steps of
the client: the commands written to the socket and those that still wait for it are the messages of
the calls, each once and in call order, and every recorded subscription has its `Sub` among them, if
and only if each message handed to the client could be written and found a place in the queue of a
client that serves, and neither the channel was closed nor the loop ended while a command waited. A
running polling loop gets all that waits written. -/
theorem commands_conveyed_iff
    (hser : WritesCommands serialize)
    {as : List (Action M)} (hrun : (machine serialize).run {} as = some p) :
    (Conveyed serialize p ↔ (machine serialize).Along (Keeps serialize) {} as) ∧
      (Running p.client → ∃ client, (machine serialize).Runs OfLoop p { p with client := client } ∧
        client.waiting = [] ∧ client.output = p.client.output) := by
  have hsound : ∀ {q r : GwemsPubSub M}, (machine serialize).Reaches q r → q.Sound → r.Sound :=
    fun hr => hr.invariant fun hs hst => hs.step hser hst
  refine ⟨⟨?_, ?_⟩, fun hrunning => exists_runs_written ?_ hrunning⟩
  · intro hconveyed
    by_contra hnot
    obtain ⟨u, v, a, hu, ha, huv, hv⟩ := Machine.exists_of_not_along hnot hrun
    have hlossy : v.Lossy := lossy_of_not_keeps hser (hsound hu sound_init) ha huv
    have hend : p.Sound ∧ p.Lossy := hv.invariant (I := fun q => q.Sound ∧ q.Lossy)
      (fun hI hst => ⟨hI.1.step hser hst, hI.2.step hser hI.1 hst⟩)
      ⟨(hsound hu sound_init).step hser huv, hlossy⟩
    -- there are too few commands for the messages
    have hlen := congrArg List.length hconveyed.in_order
    have hlost := hend.2
    simp only [List.length_map] at hlen
    rw [Lossy] at hlost
    omega
  · intro halong
    have hfaithful : p.Sound ∧ Faithful serialize p :=
      (Machine.Runs.of_along halong hrun).invariant (I := fun q => q.Sound ∧ Faithful serialize q)
        (fun ha hI hst => ⟨hI.1.step hser hst, hI.2.step hser hI.1 ha hst⟩)
        ⟨sound_init, faithful_init⟩
    exact hfaithful.2.conveyed
  · exact (hsound (.of_run hrun) sound_init).objects

/-- What Jackson writes for the two subscription commands with a plain channel name. -/
def plainJson : Command Unit → Option String
  | .sub c => some ("\x7b\"@\":\"d.Sub\",\"c\":\"" ++ c ++ "\"\x7d")
  | .unsub channel => some ("\x7b\"@\":\"d.Unsub\",\"channel\":\"" ++ channel ++ "\"\x7d")
  | .pub _ _ => none

theorem writesCommands_plainJson : WritesCommands plainJson := by
  intro message s hs
  have hlive : WsClientImpl.live.toList[6]? = some 'L' := by decide
  cases message with
  | pub => cases hs
  | sub | unsub =>
    cases hs
    refine ⟨by simp [WsClientImpl.IsObject, String.toList_append], fun heq => ?_⟩
    rw [← heq] at hlive
    simp [String.toList_append] at hlive

/-- A subscription and a direct call, begun before the handshake, and all of it conveyed. -/
theorem commands_conveyed_iff_two_calls :
    ∃ p, (machine plainJson).run {} [.call (.subscribe ⟨1, "a"⟩ "chan"), .hand .accepted, .finish,
        .call (.unsubcribe ["x", "y"]), .hand .accepted, .client .connect, .client .test,
        .client .take, .client .flush, .hand .accepted, .finish] = some p ∧
      Conveyed plainJson p := by
  obtain ⟨p, hp⟩ := Option.isSome_iff_exists.mp (show ((machine plainJson).run {}
    [.call (.subscribe ⟨1, "a"⟩ "chan"), .hand .accepted, .finish, .call (.unsubcribe ["x", "y"]),
      .hand .accepted, .client .connect, .client .test, .client .take, .client .flush,
      .hand .accepted, .finish]).isSome by decide)
  exact ⟨p, hp, (commands_conveyed_iff writesCommands_plainJson hp).1.mpr (by decide)⟩

/-- A full queue loses a command: the seventeenth string finds no place before the handshake.
`Global.subscribe` records the agent, and when the loop has written everything there is no `Sub`
for its channel. -/
theorem commands_lost :
    ∃ p, (machine plainJson).Reaches {} p ∧ p.progress = none ∧ p.client.waiting = [] ∧
      ⟨1, "a"⟩ ∈ p.session2channel.thing2items_get "chan" ∧
      ∀ f ∈ p.client.sent, frame plainJson (.sub "chan") ≠ some f :=
  Machine.Reaches.exists_of_run ([Action.call (.subcribe (List.replicate 15 "x"))] ++
    List.replicate 15 (Action.hand .accepted) ++ [Action.finish,
      .call (.subscribe ⟨1, "a"⟩ "chan"), .hand .timedOut, .finish, .client .connect] ++
        (List.replicate 16 [.client .test, .client .take, .client .flush]).flatten) (by decide)

-- the channel is closed, as at the expiry of the session: a string in the queue is lost as well
example : ∃ p, (machine plainJson).run {} [.client .connect, .client .test, .client .take,
    .client .flush, .client .close, .call (.subscribe ⟨1, "a"⟩ "chan"), .hand .accepted, .finish,
    .client .test, .client .take] = some p ∧
      p.client.commands4serverQ = [] ∧ p.client.sent = [.text WsClientImpl.live] :=
  ⟨_, rfl, rfl, rfl⟩

end GwemsPubSub

end Gwems
