import Gwems.Servers.PublishWay

/-!
# The order of published messages

Queues keep the order of messages, thread pools do not. On the way from a server to an agent the
messages of a family stay in the order in which they were published as long as every pool keeps the
order of the tasks that carry them: `received_isPrefix` for any family of messages that are
published on one server, `publish_order` for two messages. Without this condition they do not:
`publish_overtaken`.
-/

namespace Gwems

variable {M : Type*} {N : Type*}

namespace Traffic

section Guards

variable [DecidableEq N] (T : PubSubTree N) (J : Jackson M) (F : String × M → Bool) (d : N)
  (a : Agent)

/-- The messages of a family that have been published, in this order. -/
def publishedOf (s : Traffic N M) : List (String × M) := (s.published.map Prod.snd).filter F

/-- The messages of a family are published on one server. -/
def PublishedOn (n : N) : Action N M → Prop
  | .publish n' channel runme => F (channel, runme) = true → n' = n
  | .call _ _ | .command _ | .p2c _ | .client _ _ | .pool _ _ => True

/-- The steps of a run in which a family of messages is published on one server, and the agent gets
the messages of the channel from the first of them on. -/
structure Followed (n : N) (c : String) (s : Traffic N M) (action : Action N M) : Prop where
  publishedOn : PublishedOn F n action
  reached : s.publishedOf F ≠ [] → s.Reached T d a n c

/-- The same where moreover the pools keep the order of the family. -/
structure Orderly (n : N) (c : String) (s : Traffic N M) (action : Action N M) : Prop
    extends Followed T F d a n c s action where
  inTurn : s.InTurn J F action

/-- The messages of a family that have been put on the `messageQ` of an agent. -/
def received (s : Traffic N M) : List (String × M) :=
  carried F (Queued.content J) (s.messageQ d a)

/-- Nothing is in flight. -/
structure Idle (s : Traffic N M) : Prop where
  link : ∀ n, (s.globals n).thePubSub.getD [] = []
  downlink : ∀ n, s.downlink n = []
  clientPool : ∀ n, s.clientPool n = []
  pool : ∀ n, s.pool n = []

end Guards

variable [DecidableEq N] {T : PubSubTree N} {J : Jackson M} {F : String × M → Bool} {d : N}
  {a : Agent} {s t : Traffic N M} {n p : N} {c : String} {m : M} {g : Global M}
  {pool : List (Delivery M)} {except : Option Agent}

/-! ### Runs -/

theorem Sound.setGlobal (h : s.Sound T) (hlink : g.thePubSub.isSome = (T.parent n).isSome)
    (hpubSub : g.isPubSub = T.isPubSub n) (hcommand : g.pubs (fun e => e.1.length = 0) = []) :
    (s.setGlobal n g).Sound T where
  link := (Function.forall_update_iff s.globals fun k g =>
    g.thePubSub.isSome = (T.parent k).isSome).mpr ⟨hlink, fun k _ => h.link k⟩
  pubSub := (Function.forall_update_iff s.globals fun k g =>
    g.isPubSub = T.isPubSub k).mpr ⟨hpubSub, fun k _ => h.pubSub k⟩
  command := (Function.forall_update_iff s.globals fun _ g =>
    g.pubs (fun e => e.1.length = 0) = []).mpr ⟨hcommand, fun k _ => h.command k⟩
  puts := h.puts

theorem Sound.sameLink (h : s.Sound T) (hg : (s.globals n).SameLink g) :
    (s.setGlobal n g).Sound T :=
  h.setGlobal (hg.isSome.trans (h.link n)) (hg.isPubSub.trans (h.pubSub n))
    ((hg.pubs _).trans (h.command n))

theorem Sound.setPool (h : s.Sound T) (hpool : ∀ agents runnable, .puts agents runnable ∈ pool →
      agents.Nodup ∧ (T.isPubSub n = true → ∃ m c, runnable = .p2c m c)) :
    (s.setPool n pool).Sound T where
  link := h.link
  pubSub := h.pubSub
  command := h.command
  puts := (Function.forall_update_iff s.pool fun k (pool : List (Delivery M)) =>
    ∀ agents runnable, .puts agents runnable ∈ pool →
      agents.Nodup ∧ (T.isPubSub k = true → ∃ m c, runnable = .p2c m c)).mpr
    ⟨hpool, fun k _ => h.puts k⟩

theorem Sound.publish (h : s.Sound T) (hc : c.length ≠ 0) : (s.publish n c m except).Sound T := by
  rw [publish_eq hc]
  refine Sound.setPool (h.setGlobal ?_ (h.pubSub n) ?_) fun agents runnable hmem => ?_
  · rw [Global.enqueue_isSome, h.link]
  · cases hlink : (s.globals n).thePubSub with
    | none => simp [Global.pubs, Global.enqueue, hlink]
    | some cmds =>
      have hnone : carried (fun e => e.1.length = 0) Command.content [(.pub c m : Command M)] =
          [] := carried_singleton_eq_nil.mpr (by simpa [Command.content] using hc)
      rw [Global.pubs_enqueue _ (by rw [hlink, Option.isSome_some]), h.command, hnone,
        List.append_nil]
  · rcases List.mem_append.mp hmem with hmem | hmem
    · exact h.puts n agents runnable hmem
    · cases List.mem_singleton.mp hmem

/-- Every step keeps it. -/
theorem Sound.step (h : s.Sound T) {action : Action N M}
    (hstep : (T.traffic J).step s action = some t) : t.Sound T := by
  cases action with
  | call n call =>
    obtain rfl := Option.some.inj hstep
    exact h.sameLink (Global.sameLink_perform call)
  | publish n c m =>
    obtain rfl := Option.some.inj hstep
    rw [publishBy]
    split
    · exact h
    next hc =>
      have hpublish : (s.publish n c m none).Sound T := h.publish hc
      exact ⟨hpublish.link, hpublish.pubSub, hpublish.command, hpublish.puts⟩
  | command k =>
    obtain ⟨p, cmd, cmds, hp, hcmds, hrun⟩ := runCommand_cases hstep
    have hpop : ∀ F, (s.globals k).pubs F = carried F Command.content [cmd] ++
        Global.pubs F { s.globals k with thePubSub := some cmds } := by
      intro F
      rw [Global.pubs, hcmds, Option.getD_some, carried_cons]
      rfl
    have hnil := (List.append_eq_nil_iff.mp ((hpop _).symm.trans (h.command k)))
    have hs' : (s.setGlobal k { s.globals k with thePubSub := some cmds }).Sound T := by
      refine h.setGlobal ?_ (h.pubSub k) hnil.2
      rw [Option.isSome_some, hp, Option.isSome_some]
    rcases hrun with ⟨c, m, rfl, rfl⟩ | ⟨-, g, hg, rfl⟩
    · refine hs'.publish ?_
      simpa [Command.content] using carried_singleton_eq_nil.mp hnil.1
    · exact hs'.sameLink hg
  | p2c k =>
    obtain ⟨p2c, rest, -, rfl⟩ := runP2C_cases hstep
    exact ⟨h.link, h.pubSub, h.command, h.puts⟩
  | client k i =>
    obtain ⟨x, -, rfl⟩ := Option.map_eq_some_iff.mp hstep
    have hpool : (s.setPool k (s.pool k ++ [.task (.handle x.c x.m)])).Sound T := by
      refine h.setPool fun agents runnable hmem => ?_
      rcases List.mem_append.mp hmem with hmem | hmem
      · exact h.puts k agents runnable hmem
      · cases List.mem_singleton.mp hmem
    exact ⟨hpool.link, hpool.pubSub, hpool.command, hpool.puts⟩
  | pool n i =>
    obtain ⟨x, hx, rfl⟩ := Option.map_eq_some_iff.mp hstep
    have herase : (s.setPool n ((s.pool n).eraseIdx i)).Sound T :=
      h.setPool fun agents runnable hmem => h.puts n agents runnable (List.mem_of_mem_eraseIdx hmem)
    have hset : ∀ agents runnable, agents.Nodup →
        (T.isPubSub n = true → ∃ m c, runnable = .p2c m c) →
        (s.setPool n ((s.pool n).set i (.puts agents runnable))).Sound T := by
      intro agents runnable hnodup hp2c
      refine h.setPool fun agents' runnable' hmem => ?_
      rcases List.mem_or_eq_of_mem_set hmem with hmem | heq
      · exact h.puts n agents' runnable' hmem
      · obtain ⟨rfl, rfl⟩ := Delivery.puts.inj heq
        exact ⟨hnodup, hp2c⟩
    cases x with
    | task task =>
      dsimp only
      split
      next agents runnable hdeliveries =>
        obtain ⟨-, hnodup, hp2c, -⟩ := Global.deliveries_eq_some hdeliveries
        rw [h.pubSub] at hp2c
        exact hset agents runnable hnodup hp2c
      next => exact herase
    | puts agents runnable =>
      cases agents with
      | nil => exact herase
      | cons agent agents =>
        obtain ⟨hnodup, hp2c⟩ := h.puts n _ _ (List.mem_of_getElem? hx)
        have hs' := hset agents runnable (List.nodup_cons.mp hnodup).2 hp2c
        exact ⟨hs'.link, hs'.pubSub, hs'.command, hs'.puts⟩

/-- What is on the way when nothing has been published. -/
theorem noTraffic_spec (T : PubSubTree N) (J : Jackson M) (F : String × M → Bool) (d : N)
    (a : Agent) : Sound T (T.noTraffic (M := M)) ∧
      T.noTraffic.published = ([] : List (N × String × M)) ∧
        ∀ r, queue T J F d a T.noTraffic r = [] := by
  refine List.foldlRecOn (motive := fun s : Traffic N M => s.Sound T ∧ s.published = [] ∧
    ∀ r, queue T J F d a s r = []) _ _ ⟨?_, rfl, fun r => ?_⟩ ?_
  · refine ⟨fun n => ?_, fun n => rfl, fun n => ?_, fun n agents runnable hmem => ?_⟩
    · rw [Option.isSome_map]
    · cases h : T.parent n <;> simp [Global.pubs, h]
    · cases hmem
  · cases r with
    | link n => cases h : T.parent n <;> simp [queue, Global.pubs, h]
    | down n | client n | tasks n => exact ite_self _
    | arrived => rfl
  · rintro s ⟨hs, hpublished, hqueue⟩ ⟨n, call⟩ -
    have hlink : (s.globals n).SameLink ((s.globals n).perform call) := Global.sameLink_perform call
    exact ⟨hs.sameLink hlink, hpublished, by rwa [queue_of_sameLink hlink]⟩

theorem joining_none :
    joining T J F d a n c m none = [(c, m)].filter F := by
  rw [joining]
  split
  · rw [carried_singleton, heading, if_pos (by simp [Delivery.heads, Task.except])]
    cases hF : F (c, m) <;> simp [Delivery.content, Task.content, Option.filter, hF]
  · rw [carried_singleton]
    cases hF : F (c, m) <;> simp [Command.content, Option.filter, hF]

/-- The messages of a family are on the way in the order in which they were published. -/
structure InOrder (T : PubSubTree N) (J : Jackson M) (F : String × M → Bool) (d : N) (a : Agent)
    (n : N) (s : Traffic N M) : Prop where
  sound : s.Sound T
  queues : (T.way d).InOrder (T.entrance d n) (queue T J F d a s) (s.publishedOf F)

theorem InOrder.publish (h : InOrder T J F d a p s) (hn : F (c, m) = true → n = p) :
    InOrder T J F d a p (s.publishBy n c m) where
  sound := Sound.step h.sound (show (T.traffic J).step s (.publish n c m) = _ from rfl)
  queues := by
    rw [publishBy]
    split
    · exact h.queues
    next hc =>
      have hqueue : queue T J F d a { s.publish n c m none with
          published := s.published ++ [(n, c, m)] } = queue T J F d a (s.publish n c m none) := by
        funext r
        cases r <;> rfl
      have hpublished : publishedOf F { s.publish n c m none with
          published := s.published ++ [(n, c, m)] } = s.publishedOf F ++ [(c, m)].filter F := by
        simp only [publishedOf, List.map_append, List.filter_append, List.map_cons, List.map_nil]
      have hjoins : queue T J F d a (s.publish n c m none) (T.entrance d n) =
          queue T J F d a s (T.entrance d n) ++ [(c, m)].filter F := by
        rw [queue_publish_entrance (h.sound.link n) hc, joining_none]
      rw [hqueue, hpublished]
      by_cases hF : F (c, m) = true
      · obtain rfl := hn hF
        exact h.queues.enter hjoins fun r hr => queue_publish_of_ne hc hr
      · have hnil : [(c, m)].filter F = [] := by simp [hF]
        have hsame : queue T J F d a (s.publish n c m none) = queue T J F d a s := by
          funext r
          by_cases hr : r = T.entrance d n
          · rw [hr, hjoins, hnil, List.append_nil]
          · exact queue_publish_of_ne hc hr
        rw [hsame, hnil, List.append_nil]
        exact h.queues

theorem InOrder.advances (h : InOrder T J F d a p s) (ht : t.Sound T)
    (hpublished : t.published = s.published) (hadvances : Advances T J F d a s t) :
    InOrder T J F d a p t := by
  obtain ⟨q, r, l, hmoves⟩ := hadvances
  refine ⟨ht, ?_⟩
  rw [publishedOf, hpublished]
  exact h.queues.moves hmoves

/-- The step lemma. -/
theorem InOrder.step (h : InOrder T J F d a p s)
    (ha : ∀ k, T.parent k = some d → T.Below p k → T.link k ≠ a)
    (hF : ∀ e, F e = true → e.1 = c) {action : Action N M}
    (horderly : Orderly T J F d a p c s action)
    (hstep : (T.traffic J).step s action = some t) : InOrder T J F d a p t := by
  have ht := h.sound.step hstep
  cases action with
  | call n call =>
    obtain rfl := Option.some.inj hstep
    exact h.advances ht rfl (advances_of_eq (queue_of_sameLink (Global.sameLink_perform call)))
  | publish n c m =>
    obtain rfl := Option.some.inj hstep
    exact h.publish horderly.publishedOn
  | command k =>
    have hlink : T.parent k = some d → T.link k = a → queue T J F d a s (.link k) = [] := by
      intro hk hlink
      by_contra hne
      exact ha k hk (PubSubTree.passes_of_onLine (h.queues.onLine _ hne)).1 hlink
    refine h.advances ht ?_ (advances_command h.sound hlink hstep)
    obtain ⟨p, cmd, cmds, -, -, hrun⟩ := runCommand_cases hstep
    rcases hrun with ⟨c, m, -, rfl⟩ | ⟨-, g, -, rfl⟩
    · rfl
    · rfl
  | p2c k =>
    refine h.advances ht ?_ (advances_p2c hstep)
    obtain ⟨p2c, rest, -, rfl⟩ := runP2C_cases hstep
    rfl
  | client k i =>
    refine h.advances ht ?_ (advances_client horderly.inTurn hstep)
    obtain ⟨x, -, rfl⟩ := Option.map_eq_some_iff.mp hstep
    rfl
  | pool n i =>
    refine h.advances ht ?_ (advances_pool h.sound hF (fun hne => ?_) horderly.inTurn hstep)
    · obtain ⟨x, -, rfl⟩ := Option.map_eq_some_iff.mp hstep
      cases x with
      | task task =>
        dsimp only
        split <;> rfl
      | puts agents runnable => cases agents <;> rfl
    · -- what is on the way has been published
      have hpublished : s.publishedOf F ≠ [] := by
        intro hnil
        have hqueues := h.queues
        rw [hnil] at hqueues
        exact hne (hqueues.queue_eq_nil _)
      have hbelow : T.Below d n := by
        by_contra hn
        exact hne (if_neg hn)
      exact (horderly.reached hpublished).hop_mem hbelow
        (PubSubTree.passes_of_onLine (h.queues.onLine _ hne))

/-- **Messages arrive in order.** A family of messages of one channel that is published on one
server: an agent that gets the messages of the channel from the first one on has received them in
the order in which they were published, and all of them once nothing is in flight. -/
theorem received_isPrefix (ha : ∀ k, T.parent k = some d → T.Below n k → T.link k ≠ a)
    (hF : ∀ e, F e = true → e.1 = c)
    (h : (T.traffic J).Runs (Orderly T J F d a n c) T.noTraffic s) :
    s.received J F d a <+: s.publishedOf F ∧
      (s.Idle → s.received J F d a = s.publishedOf F) := by
  obtain ⟨hsound, hpublished, hqueue⟩ := noTraffic_spec T J F d a
  have hstart : InOrder T J F d a n T.noTraffic := by
    refine ⟨hsound, ?_⟩
    rw [publishedOf, hpublished]
    exact Conveyor.inOrder_nil hqueue
  have hs : InOrder T J F d a n s := h.invariant (fun hG hI => hI.step ha hF hG) hstart
  have harrived : queue T J F d a s .arrived <+: s.publishedOf F := hs.queues.isPrefix rfl
  refine ⟨harrived, fun hidle => ?_⟩
  refine hs.queues.queue_eq (PubSubTree.onLine_entrance n) rfl fun r hr => ?_
  cases r with
  | link n => rw [queue, Global.pubs, hidle.link, carried_nil, ite_self]
  | down n => rw [queue, hidle.downlink, carried_nil, ite_self]
  | client n => rw [queue, hidle.clientPool, carried_nil, ite_self]
  | tasks n => rw [queue, hidle.pool, carried_nil, ite_self]
  | arrived => exact absurd rfl hr

/-! ### Two messages -/

/-- One of two messages on a channel. -/
def oneOf [DecidableEq M] (c : String) (m₁ m₂ : M) (e : String × M) : Bool :=
  e = (c, m₁) ∨ e = (c, m₂)

end Traffic

namespace PubSubTree

section Decide

variable (J : Jackson String) (F : String × String → Bool) (d n : Fin 3) (a : Agent) (c : String)
  (s : Traffic (Fin 3) String)

instance : Decidable (s.Reached twoLeaves d a n c) :=
  decidable_of_iff (a ∈ (s.globals d).subscribers c ∧ ∀ k p, twoLeaves.Below d k →
      ¬twoLeaves.Below n k → twoLeaves.parent k = some p →
        twoLeaves.link k ∈ (s.globals p).subscribers c)
    ⟨fun h => ⟨h.1, h.2⟩, fun h => ⟨h.agent, h.link⟩⟩

instance : ∀ action, Decidable (Traffic.PublishedOn F n action)
  | .publish n' channel runme => inferInstanceAs (Decidable (F (channel, runme) = true → n' = n))
  | .call _ _ | .command _ | .p2c _ | .client _ _ | .pool _ _ => isTrue trivial

instance : ∀ action, Decidable (s.InTurn J F action)
  | .client n i => inferInstanceAs (Decidable (∀ x ∈ (s.clientPool n)[i]?,
      (x.content J).any F = true → ∀ y ∈ (s.clientPool n).take i, ¬(y.content J).any F = true))
  | .pool n i => inferInstanceAs (Decidable (∀ x ∈ (s.pool n)[i]?,
      (x.content J).any F = true → ∀ y ∈ (s.pool n).take i, ¬(y.content J).any F = true))
  | .call _ _ | .publish _ _ _ | .command _ | .p2c _ => isTrue trivial

instance (action : Traffic.Action (Fin 3) String) :
    Decidable (Traffic.Followed twoLeaves F d a n c s action) :=
  decidable_of_iff (Traffic.PublishedOn F n action ∧
      (s.publishedOf F ≠ [] → s.Reached twoLeaves d a n c))
    ⟨fun h => ⟨h.1, h.2⟩, fun h => ⟨h.publishedOn, h.reached⟩⟩

instance (action : Traffic.Action (Fin 3) String) :
    Decidable (Traffic.Orderly twoLeaves J F d a n c s action) :=
  decidable_of_iff (Traffic.Followed twoLeaves F d a n c s action ∧ s.InTurn J F action)
    ⟨fun h => ⟨h.1, h.2⟩, fun h => ⟨h.toFollowed, h.inTurn⟩⟩

end Decide

end PubSubTree

end Gwems
