import Gwems.Library.Conveyor
import Gwems.Servers.PubSubTreeDelivery
import Gwems.Servers.Traffic

/-!
# The way of a message to an agent

For an agent somewhere in the tree, the way of the messages of a channel is a `Conveyor`: up the
links to the first server above the agent's (`Station.link`), then down from server to server
through the pool of the server (`Station.tasks`), the link of the child (`Station.down`) and the
pool of that link's client (`Station.client`), and last to the agent's `messageQ`.

`queue` is what each queue of the code holds for the agent of a family of messages. A step of the
system moves messages at most one station on (`Advances`). On a link they leave in the order of the
queue by themselves. In a pool they do if the tasks that carry the messages make their steps in the
order in which they were given to it (`InTurn`).
-/

namespace Gwems

variable {M : Type*} {N : Type*}

/-! ### What is carried -/

/-- The channel and the message of a `P2C`, if its text can be read. -/
def P2C.content (J : Jackson M) (p2c : P2C) : Option (String × M) :=
  (J.deserialize p2c.m).map (p2c.c, ·)

/-- The same for what is put on a `messageQ`. -/
def Queued.content (J : Jackson M) : Queued M → Option (String × M)
  | .p2c m c => (J.deserialize m).map (c, ·)
  | .wrapper channel runme => some (channel, runme)

/-- The same for a task. -/
def Task.content (J : Jackson M) : Task M → Option (String × M)
  | .publish channel runme _ => some (channel, runme)
  | .handle channel str => (J.deserialize str).map (channel, ·)

/-- The same for a task that may have begun. -/
def Delivery.content (J : Jackson M) : Delivery M → Option (String × M)
  | .task t => t.content J
  | .puts _ runnable => runnable.content J

/-- The same for a command. -/
def Command.content : Command M → Option (String × M)
  | .pub c m => some (c, m)
  | .sub _ | .unsub _ => none

/-! ### The way to an agent -/

/-- A queue on the way to an agent: the link of a server, the `P2C`s for it, the pool of its client
and its own pool, or the agent's `messageQ`. -/
inductive Station (N : Type*)
  | link (n : N)
  | down (n : N)
  | client (n : N)
  | tasks (n : N)
  | arrived
deriving DecidableEq

namespace PubSubTree

variable [DecidableEq N] (T : PubSubTree N) (d : N) (a : Agent)

/-- The child of a server on the way down to another server. -/
def toward (n : N) : Option N := T.nodes.find? fun k => T.parent k = some n ∧ T.Below d k

/-- The agent whose `messageQ` comes next on the way down. -/
def hop (n : N) : Agent := (T.toward d n).elim a T.link

/-- Where a message that is published on a server joins the way. -/
def entrance (n : N) : Station N := if T.Below d n then .tasks n else .link n

/-- The next station. -/
def nextStation : Station N → Option (Station N)
  | .link n => (T.parent n).map (T.entrance d)
  | .down n => some (.client n)
  | .client n => some (.tasks n)
  | .tasks n => some ((T.toward d n).elim .arrived .down)
  | .arrived => none

variable {T} {d n p k : N} {a : Agent}

theorem toward_eq_some (h : T.toward d n = some k) : T.parent k = some n ∧ T.Below d k :=
  of_decide_eq_true (List.find?_some (p := fun k => T.parent k = some n ∧ T.Below d k) h)

/-- There is at most one such child. -/
theorem toward_of_parent (hk : T.parent k = some n) (hd : T.Below d k) :
    T.toward d n = some k := by
  cases h : T.toward d n with
  | none =>
    exact absurd (decide_eq_true ⟨hk, hd⟩) (List.find?_eq_none.mp h k (T.mem_nodes k))
  | some k' =>
    obtain ⟨hk', hd'⟩ := toward_eq_some h
    rw [Tree.child_unique hk hk' hd hd']

/-- The way down ends at the server of the agent. -/
theorem toward_eq_none (hd : T.Below d n) (h : T.toward d n = none) : n = d := by
  rcases Tree.below_iff.mp hd with rfl | ⟨k, hk, hdk⟩
  · rfl
  · rw [toward_of_parent hk hdk] at h
    cases h

theorem toward_self : T.toward d d = none := by
  rw [Option.eq_none_iff_forall_ne_some]
  intro k hk
  obtain ⟨hparent, hbelow⟩ := toward_eq_some hk
  have hdepth := T.depth_of_parent k d hparent
  have hle := hbelow.depth_le
  omega

theorem hop_of_parent (hk : T.parent k = some n) (hd : T.Below d k) :
    T.hop d a n = T.link k := by
  rw [hop, toward_of_parent hk hd, Option.elim_some]

theorem hop_self : T.hop d a d = a := by
  rw [hop, toward_self, Option.elim_none]

/-- The hop is not the agent of another link. -/
theorem hop_ne_link (ha : T.parent k = some d → T.link k ≠ a) (hd : T.Below d n)
    (hk : T.parent k = some n) (hdk : ¬T.Below d k) : T.hop d a n ≠ T.link k := by
  cases h : T.toward d n with
  | none =>
    obtain rfl := toward_eq_none hd h
    rw [hop_self]
    exact (ha hk).symm
  | some k' =>
    obtain ⟨hk', hd'⟩ := toward_eq_some h
    rw [hop_of_parent hk' hd']
    intro hlink
    rw [T.link_inj n k' k hk' hk hlink] at hd'
    exact hdk hd'

/-- A rank of the stations. -/
def stationRank (T : PubSubTree N) (height : ℕ) : Station N → ℕ
  | .link n => 3 * height + 2 + T.depth n
  | .down n => 3 * (height - T.depth n) + 3
  | .client n => 3 * (height - T.depth n) + 2
  | .tasks n => 3 * (height - T.depth n) + 1
  | .arrived => 0

theorem stationRank_next {height : ℕ} (hheight : ∀ n, T.depth n ≤ height) (p q : Station N)
    (h : T.nextStation d p = some q) : T.stationRank height q < T.stationRank height p := by
  cases p with
  | link n =>
    obtain ⟨p, hp, rfl⟩ := Option.map_eq_some_iff.mp h
    have hdepth := T.depth_of_parent n p hp
    rw [entrance]
    split
    · simp only [stationRank]
      omega
    · simp only [stationRank]
      omega
  | down n | client n =>
    obtain rfl := Option.some.inj h
    simp only [stationRank]
    omega
  | tasks n =>
    obtain rfl := Option.some.inj h
    cases hk : T.toward d n with
    | none =>
      simp only [Option.elim_none, stationRank]
      omega
    | some k =>
      have hdepth := T.depth_of_parent k n (toward_eq_some hk).1
      have hle := hheight k
      simp only [Option.elim_some, stationRank]
      omega
  | arrived => cases h

variable (T d) in
/-- The way to a server as a conveyor. -/
def way : Conveyor (Station N) where
  next := T.nextStation d
  rank := T.stationRank (T.nodes.map T.depth).sum
  rank_next := stationRank_next fun n => List.le_sum_of_mem (List.mem_map_of_mem (T.mem_nodes n))

variable (T d) in
/-- What is known of the stations between a server and the agent: the way goes up from the server,
and then down, away from it. -/
def Passes (n : N) : Station N → Prop
  | .link k => T.Below n k ∧ ¬T.Below d k
  | .down k | .client k => ¬T.Below n k
  | .tasks p => ∀ k, T.parent k = some p → T.Below d k → ¬T.Below n k
  | .arrived => True

/-- The line from a server is such a way. -/
theorem passes_of_onLine {q : Station N} (h : (T.way d).OnLine (T.entrance d n) q) :
    T.Passes d n q := by
  induction h with
  | refl =>
    rw [entrance]
    split
    next =>
      intro k hk _ hnk
      have hdepth := T.depth_of_parent k n hk
      have hle := hnk.depth_le
      omega
    next hdn => exact ⟨Tree.below_refl, hdn⟩
  | @tail q r _ hnext ih =>
    cases q with
    | link k =>
      obtain ⟨p, hp, rfl⟩ := Option.map_eq_some_iff.mp hnext
      rw [entrance]
      split
      next =>
        -- the way turns round: it goes down to another child
        intro k' hk' hdk' hnk'
        rw [Tree.child_unique hk' hp hnk' ih.1] at hdk'
        exact ih.2 hdk'
      next hdp => exact ⟨ih.1.trans (Tree.below_of_parent hp), hdp⟩
    | down k =>
      obtain rfl := Option.some.inj hnext
      exact ih
    | client k =>
      obtain rfl := Option.some.inj hnext
      exact fun _ hk _ hnk => ih (hnk.trans (Tree.below_of_parent hk))
    | tasks p =>
      obtain rfl := Option.some.inj hnext
      cases hk : T.toward d p with
      | none => exact trivial
      | some k =>
        obtain ⟨hparent, hbelow⟩ := toward_eq_some hk
        exact ih k hparent hbelow
    | arrived => cases hnext

/-- Every server is on the way. -/
theorem onLine_entrance (n : N) : (T.way d).OnLine (T.entrance d n) .arrived := by
  have hdown : ∀ {n}, T.Below d n → (T.way d).OnLine (.tasks n) .arrived := by
    intro n hn
    induction hn with
    | refl => exact .single (congrArg some (by rw [toward_self, Option.elim_none]))
    | @tail k n hk hparent ih =>
      have hnext : (T.way d).next (.tasks n) = some (.down k) :=
        congrArg some (by rw [toward_of_parent hparent hk, Option.elim_some])
      exact .head hnext (.head rfl (.head rfl ih))
  induction n using Tree.induction_down (T := T.toTree) with
  | root =>
    rw [entrance, if_pos (Tree.below_root d)]
    exact hdown (Tree.below_root d)
  | child k p hk ih =>
    by_cases hdk : T.Below d k
    · rw [entrance, if_pos hdk]
      exact hdown hdk
    · have hnext : (T.way d).next (.link k) = some (T.entrance d p) := by
        simp only [way, nextStation, hk, Option.map_some]
      rw [entrance, if_neg hdk]
      exact .head hnext ih

end PubSubTree

/-! ### The commands on a link -/

namespace Global

variable {F : String × M → Bool} {g g' : Global M} {c : String}

/-- The messages of a family on the link. -/
def pubs (F : String × M → Bool) (g : Global M) : List (String × M) :=
  carried F Command.content (g.thePubSub.getD [])

/-- The server is the same as before but for its subscriptions and the commands about them. -/
structure SameLink (g g' : Global M) : Prop where
  pubs : ∀ F, g'.pubs F = g.pubs F
  isSome : g'.thePubSub.isSome = g.thePubSub.isSome
  isPubSub : g'.isPubSub = g.isPubSub

theorem pubs_enqueue (cmd : Command M) (hlink : g.thePubSub.isSome = true) :
    (g.enqueue cmd).pubs F = g.pubs F ++ carried F Command.content [cmd] := by
  obtain ⟨cmds, hcmds⟩ := Option.isSome_iff_exists.mp hlink
  simp [pubs, enqueue, hcmds, carried_append]

/-- A command without a message. -/
theorem pubs_enqueue_of_content {cmd : Command M} (hcmd : cmd.content = none) :
    (g.enqueue cmd).pubs F = g.pubs F := by
  cases hlink : g.thePubSub with
  | none => simp [pubs, enqueue, hlink]
  | some cmds => simp [pubs, enqueue, hlink, carried_append, carried_singleton, hcmd]

theorem pubs_unsubcribeIfEmpty : (g.unsubcribeIfEmpty c).pubs F = g.pubs F := by
  rw [unsubcribeIfEmpty]
  split
  · exact pubs_enqueue_of_content rfl
  · rfl

theorem pubs_foldl_unsubcribeIfEmpty (l : List String) (g : Global M) :
    (l.foldl unsubcribeIfEmpty g).pubs F = g.pubs F := by
  induction l generalizing g with
  | nil => rfl
  | cons c l ih => rw [List.foldl_cons, ih, pubs_unsubcribeIfEmpty]

/-- No call sends a message. -/
theorem sameLink_perform (call : SubscriptionCall) : g.SameLink (g.perform call) where
  pubs F := by
    cases call with
    | subscribe a c =>
      simp only [perform, subscribe]
      split
      · rfl
      · split
        · exact pubs_enqueue_of_content rfl
        · rfl
    | unsubscribe a c => exact pubs_unsubcribeIfEmpty
    | unsubscribeAgent a => exact pubs_foldl_unsubcribeIfEmpty _ _
  isSome := perform_isSome call
  isPubSub := perform_isPubSub call

end Global

/-! ### The queues of the way -/

/-- Whether a task still puts its message on the `messageQ` of an agent. -/
def Delivery.heads (pubSub : Bool) (agent : Agent) : Delivery M → Bool
  | .task t => !pubSub || t.except ≠ some agent
  | .puts agents _ => agent ∈ agents

namespace Traffic

variable [DecidableEq N] (T : PubSubTree N) (J : Jackson M) (F : String × M → Bool) (d : N)
  (a : Agent)

/-- What a task carries for the next hop. -/
def heading (n : N) (x : Delivery M) : Option (String × M) :=
  if x.heads (T.isPubSub n) (T.hop d a n) then x.content J else none

/-- The messages of a family on their way to an agent, in the queue of each station. -/
def queue (s : Traffic N M) : Station N → List (String × M)
  | .link n => if T.Below d n then [] else (s.globals n).pubs F
  | .down n => if T.Below d n then carried F (P2C.content J) (s.downlink n) else []
  | .client n => if T.Below d n then carried F (P2C.content J) (s.clientPool n) else []
  | .tasks n => if T.Below d n then carried F (heading T J d a n) (s.pool n) else []
  | .arrived => carried F (Queued.content J) (s.messageQ d a)

/-- The agent gets the messages of a channel that are published on a server: it is subscribed, and
so are the links on the way down to it. -/
structure Reached (n : N) (c : String) (s : Traffic N M) : Prop where
  agent : a ∈ (s.globals d).subscribers c
  link : ∀ k p, T.Below d k → ¬T.Below n k → T.parent k = some p →
    T.link k ∈ (s.globals p).subscribers c

/-- A task of a pool that carries a message of the family makes a step only when the tasks that the
pool was given before it carry none. -/
def InTurn (s : Traffic N M) : Action N M → Prop
  | .client n i => ∀ x ∈ (s.clientPool n)[i]?, (x.content J).any F = true →
      ∀ y ∈ (s.clientPool n).take i, ¬(y.content J).any F = true
  | .pool n i => ∀ x ∈ (s.pool n)[i]?, (x.content J).any F = true →
      ∀ y ∈ (s.pool n).take i, ¬(y.content J).any F = true
  | .call _ _ | .publish _ _ _ | .command _ | .p2c _ => True

/-- What the constructors establish and every step keeps. -/
structure Sound (s : Traffic N M) : Prop where
  link : ∀ n, (s.globals n).thePubSub.isSome = (T.parent n).isSome
  pubSub : ∀ n, (s.globals n).isPubSub = T.isPubSub n
  command : ∀ n, (s.globals n).pubs (fun e => e.1.length = 0) = []
  puts : ∀ n agents runnable, .puts agents runnable ∈ s.pool n →
    agents.Nodup ∧ (T.isPubSub n = true → ∃ m c, runnable = .p2c m c)

variable {T J F d a} {s t : Traffic N M} {n k p : N} {c : String} {m : M} {r : Station N}
  {g : Global M} {pool : List (Delivery M)} {except : Option Agent}

theorem Reached.hop_mem (h : Reached T d a n c s) (hp : T.Below d p)
    (hpasses : ∀ k, T.parent k = some p → T.Below d k → ¬T.Below n k) :
    T.hop d a p ∈ (s.globals p).subscribers c := by
  cases hk : T.toward d p with
  | none =>
    obtain rfl := PubSubTree.toward_eq_none hp hk
    rw [PubSubTree.hop_self]
    exact h.agent
  | some k =>
    obtain ⟨hparent, hbelow⟩ := PubSubTree.toward_eq_some hk
    rw [PubSubTree.hop_of_parent hparent hbelow]
    exact h.link k p hbelow (hpasses k hparent hbelow) hparent

end Traffic

/-! ### Steps -/

namespace Traffic

section Fields

variable [DecidableEq N] (s : Traffic N M) (n : N) (g : Global M) (pool : List (Delivery M))

@[simp] theorem setGlobal_globals : (s.setGlobal n g).globals = Function.update s.globals n g := rfl
@[simp] theorem setGlobal_pool : (s.setGlobal n g).pool = s.pool := rfl
@[simp] theorem setGlobal_published : (s.setGlobal n g).published = s.published := rfl
@[simp] theorem setPool_globals : (s.setPool n pool).globals = s.globals := rfl
@[simp] theorem setPool_pool : (s.setPool n pool).pool = Function.update s.pool n pool := rfl
@[simp] theorem setPool_published : (s.setPool n pool).published = s.published := rfl

end Fields

variable [DecidableEq N] {T : PubSubTree N} {J : Jackson M} {F : String × M → Bool} {d : N}
  {a : Agent} {s t : Traffic N M} {n k p : N} {c : String} {m : M} {r : Station N}
  {g : Global M} {pool : List (Delivery M)} {except : Option Agent}

theorem queue_setGlobal_self :
    queue T J F d a (s.setGlobal n g) (.link n) = if T.Below d n then [] else g.pubs F := by
  rw [queue, setGlobal_globals, Function.update_self]

theorem queue_setGlobal_of_ne (hr : r ≠ .link n) :
    queue T J F d a (s.setGlobal n g) r = queue T J F d a s r := by
  cases r with
  | link k =>
    have hk : k ≠ n := fun h => hr (h ▸ rfl)
    rw [queue, setGlobal_globals, Function.update_of_ne hk, queue]
  | down k | client k | tasks k | arrived => rfl

theorem queue_setPool_self :
    queue T J F d a (s.setPool n pool) (.tasks n) =
      if T.Below d n then carried F (heading T J d a n) pool else [] := by
  rw [queue, setPool_pool, Function.update_self]

theorem queue_setPool_of_ne (hr : r ≠ .tasks n) :
    queue T J F d a (s.setPool n pool) r = queue T J F d a s r := by
  cases r with
  | tasks k =>
    have hk : k ≠ n := fun h => hr (h ▸ rfl)
    rw [queue, setPool_pool, Function.update_of_ne hk, queue]
  | link k | down k | client k | arrived => rfl

/-- A change of subscriptions moves no message. -/
theorem queue_of_sameLink (hg : (s.globals n).SameLink g) :
    queue T J F d a (s.setGlobal n g) = queue T J F d a s := by
  funext r
  by_cases hr : r = .link n
  · rw [hr, queue_setGlobal_self, hg.pubs, queue]
  · exact queue_setGlobal_of_ne hr

theorem publish_eq (hc : c.length ≠ 0) :
    s.publish n c m except = (s.setGlobal n ((s.globals n).enqueue (.pub c m))).setPool n
      (s.pool n ++ [.task (.publish c m except)]) := by
  simp only [publish, Global.publish, if_neg hc]
  rfl

variable (T J F d a) in
/-- What a call of `publish` sends on the way. -/
def joining (n : N) (c : String) (m : M) (except : Option Agent) : List (String × M) :=
  if T.Below d n then carried F (heading T J d a n) [.task (.publish c m except)]
  else carried F Command.content [.pub c m]

theorem queue_publish_entrance (hlink : (s.globals n).thePubSub.isSome = (T.parent n).isSome)
    (hc : c.length ≠ 0) :
    queue T J F d a (s.publish n c m except) (T.entrance d n) =
      queue T J F d a s (T.entrance d n) ++ joining T J F d a n c m except := by
  rw [publish_eq hc]
  by_cases hn : T.Below d n
  · rw [PubSubTree.entrance, if_pos hn, queue_setPool_self, if_pos hn, carried_append, queue,
      if_pos hn, joining, if_pos hn]
  · have hsome : (s.globals n).thePubSub.isSome = true := by
      rw [hlink, Option.isSome_iff_ne_none]
      intro hnone
      exact hn ((T.parent_eq_none_iff n).mp hnone ▸ Tree.below_root d)
    rw [PubSubTree.entrance, if_neg hn, queue_setPool_of_ne (by simp), queue_setGlobal_self,
      if_neg hn, Global.pubs_enqueue _ hsome, queue, if_neg hn, joining, if_neg hn]

theorem queue_publish_of_ne (hc : c.length ≠ 0) (hr : r ≠ T.entrance d n) :
    queue T J F d a (s.publish n c m except) r = queue T J F d a s r := by
  rw [publish_eq hc]
  by_cases hn : T.Below d n
  · rw [PubSubTree.entrance, if_pos hn] at hr
    rw [queue_setPool_of_ne hr]
    by_cases hlink : r = .link n
    · rw [hlink, queue_setGlobal_self, if_pos hn, queue, if_pos hn]
    · exact queue_setGlobal_of_ne hlink
  · rw [PubSubTree.entrance, if_neg hn] at hr
    by_cases htasks : r = .tasks n
    · rw [htasks, queue_setPool_self, if_neg hn, queue, if_neg hn]
    · rw [queue_setPool_of_ne htasks, queue_setGlobal_of_ne hr]

/-- A message is not sent back on the link that it came from. -/
theorem joining_of_hop (hk : T.parent k = some p) (hdp : T.Below d p)
    (hhop : T.hop d a p = T.link k) : joining T J F d a p c m (some (T.link k)) = [] := by
  have hpubSub : T.isPubSub p = true := PubSubTree.isPubSub_iff.mpr fun hleaf => hleaf k hk
  rw [joining, if_pos hdp, carried_singleton]
  simp [heading, Delivery.heads, hpubSub, Task.except, hhop]

/-- What comes from a link goes on to any other agent. -/
theorem joining_link (ha : T.parent k = some d → T.link k ≠ a) (hk : T.parent k = some p) :
    joining T J F d a p c m (some (T.link k)) =
      if T.Below d k then [] else carried F Command.content [.pub c m] := by
  by_cases hdk : T.Below d k
  · rw [if_pos hdk]
    exact joining_of_hop hk (hdk.trans (Tree.below_of_parent hk)) (PubSubTree.hop_of_parent hk hdk)
  · rw [joining, if_neg hdk]
    by_cases hdp : T.Below d p
    · have hne := PubSubTree.hop_ne_link ha hdp hk hdk
      rw [if_pos hdp, carried_singleton, carried_singleton]
      simp [heading, Delivery.heads, Task.except, hne.symm, Delivery.content, Task.content,
        Command.content]
    · rw [if_neg hdp]

/-- What a parent does with a command. -/
theorem runCommand_cases (h : s.runCommand T k = some t) :
    ∃ p cmd cmds, T.parent k = some p ∧ (s.globals k).thePubSub = some (cmd :: cmds) ∧
      let s' := s.setGlobal k { s.globals k with thePubSub := some cmds }
      (∃ c m, cmd = .pub c m ∧ t = s'.publish p c m (some (T.link k))) ∨
        cmd.content = none ∧ ∃ g, (s'.globals p).SameLink g ∧ t = s'.setGlobal p g := by
  rw [runCommand] at h
  split at h
  next p cmd cmds hp hcmds =>
    refine ⟨p, cmd, cmds, hp, hcmds, ?_⟩
    cases cmd with
    | pub c m => exact .inl ⟨c, m, rfl, (Option.some.inj h).symm⟩
    | sub c =>
      exact .inr ⟨rfl, _, Global.sameLink_perform (.subscribe _ c), (Option.some.inj h).symm⟩
    | unsub c =>
      exact .inr ⟨rfl, _, Global.sameLink_perform (.unsubscribe _ c), (Option.some.inj h).symm⟩
  next => cases h

/-- A step that moves messages one station on. -/
def Advances (T : PubSubTree N) (J : Jackson M) (F : String × M → Bool) (d : N) (a : Agent)
    (s t : Traffic N M) : Prop :=
  ∃ p q l, (T.way d).Moves (queue T J F d a s) (queue T J F d a t) p q l

theorem advances_of_eq (h : queue T J F d a t = queue T J F d a s) : Advances T J F d a s t :=
  ⟨.down d, .client d, [], rfl, by rw [h, List.nil_append], by rw [h, List.append_nil],
    fun r _ _ => by rw [h]⟩

/-- The head of a link. -/
theorem queue_link {cmd : Command M} {cmds : List (Command M)}
    (h : (s.globals k).thePubSub = some (cmd :: cmds)) :
    queue T J F d a s (.link k) =
      (if T.Below d k then [] else carried F Command.content [cmd]) ++
        queue T J F d a (s.setGlobal k { s.globals k with thePubSub := some cmds }) (.link k) := by
  rw [queue_setGlobal_self, queue]
  split
  · rfl
  · rw [Global.pubs, h, Option.getD_some, carried_cons]
    rfl

theorem advances_command (hs : s.Sound T)
    (ha : T.parent k = some d → T.link k = a → queue T J F d a s (.link k) = [])
    (h : s.runCommand T k = some t) : Advances T J F d a s t := by
  obtain ⟨p, cmd, cmds, hp, hcmds, hrun⟩ := runCommand_cases h
  have hkp : k ≠ p := Tree.ne_of_parent hp
  have hhead := queue_link (T := T) (J := J) (F := F) (d := d) (a := a) hcmds
  rcases hrun with ⟨c, m, rfl, rfl⟩ | ⟨hcmd, g, hg, rfl⟩
  · have hc : c.length ≠ 0 := by
      intro hc
      have hnone := hs.command k
      rw [Global.pubs, hcmds, Option.getD_some, carried_cons, List.append_eq_nil_iff,
        carried_singleton_eq_nil] at hnone
      refine hnone.1 ?_
      rw [Command.content, Option.any_some]
      exact decide_eq_true hc
    have hne : T.entrance d p ≠ .link k := by
      rw [PubSubTree.entrance]
      split
      · simp
      · simp [hkp.symm]
    have hlink : ((s.setGlobal k { s.globals k with thePubSub := some cmds }).globals
        p).thePubSub.isSome = (T.parent p).isSome := by
      rw [setGlobal_globals, Function.update_of_ne hkp.symm, hs.link]
    have hjoining : joining T J F d a p c m (some (T.link k)) =
        if T.Below d k then [] else carried F Command.content [.pub c m] := by
      by_cases hself : T.parent k = some d ∧ T.link k = a
      · obtain rfl : p = d := Option.some.inj (hp.symm.trans hself.1)
        rw [ha hself.1 hself.2, eq_comm, List.append_eq_nil_iff] at hhead
        rw [hhead.1]
        exact joining_of_hop hp Tree.below_refl (PubSubTree.hop_self.trans hself.2.symm)
      · exact joining_link (fun hk hlink => hself ⟨hk, hlink⟩) hp
    refine ⟨.link k, T.entrance d p,
      if T.Below d k then [] else carried F Command.content [.pub c m], ?_, ?_, ?_,
      fun r hr hr' => ?_⟩
    · simp only [PubSubTree.way, PubSubTree.nextStation, hp, Option.map_some]
    · rw [queue_publish_of_ne hc hne.symm]
      exact hhead
    · rw [queue_publish_entrance hlink hc, hjoining, queue_setGlobal_of_ne hne]
    · rw [queue_publish_of_ne hc hr', queue_setGlobal_of_ne hr]
  · refine advances_of_eq ?_
    rw [queue_of_sameLink hg]
    funext r
    by_cases hr : r = .link k
    · rw [hr, hhead, carried_singleton, hcmd]
      split <;> rfl
    · exact queue_setGlobal_of_ne hr

theorem runP2C_cases (h : s.runP2C k = some t) :
    ∃ p2c rest, s.downlink k = p2c :: rest ∧
      t = { s with
        downlink := Function.update s.downlink k rest
        clientPool := Function.update s.clientPool k (s.clientPool k ++ [p2c]) } := by
  rw [runP2C] at h
  split at h
  next p2c rest hdown => exact ⟨p2c, rest, hdown, (Option.some.inj h).symm⟩
  next => cases h

theorem advances_p2c (h : s.runP2C k = some t) : Advances T J F d a s t := by
  obtain ⟨p2c, rest, hdown, rfl⟩ := runP2C_cases h
  refine ⟨.down k, .client k, if T.Below d k then carried F (P2C.content J) [p2c] else [], rfl,
    ?_, ?_, fun r hr hr' => ?_⟩
  · simp only [queue, Function.update_self]
    split
    · rw [hdown, carried_cons]
    · rfl
  · simp only [queue, Function.update_self]
    split
    · rw [carried_append]
    · rfl
  · cases r with
    | down n =>
      have hn : n ≠ k := fun h => hr (h ▸ rfl)
      simp only [queue, Function.update_of_ne hn]
    | client n =>
      have hn : n ≠ k := fun h => hr' (h ▸ rfl)
      simp only [queue, Function.update_of_ne hn]
    | link n | tasks n | arrived => rfl

/-- What comes down from the parent is for all agents of a server. -/
theorem heading_handle (x : P2C) :
    heading T J d a n (.task (.handle x.c x.m)) = x.content J := by
  rw [heading, if_pos (by simp [Delivery.heads, Task.except])]
  rfl

theorem advances_client {i : ℕ} (hturn : s.InTurn J F (.client k i))
    (h : s.runClient k i = some t) : Advances T J F d a s t := by
  obtain ⟨x, hx, rfl⟩ := Option.map_eq_some_iff.mp h
  refine ⟨.client k, .tasks k, if T.Below d k then carried F (P2C.content J) [x] else [], rfl,
    ?_, ?_, fun r hr hr' => ?_⟩
  · simp only [queue, Function.update_self]
    split
    · exact carried_eq_append_eraseIdx hx (hturn x hx)
    · rfl
  · simp only [queue, setPool_pool, Function.update_self]
    split
    · rw [carried_append, carried_singleton, carried_singleton, heading_handle]
    · rfl
  · cases r with
    | client n =>
      have hn : n ≠ k := fun h => hr (h ▸ rfl)
      simp only [queue, Function.update_of_ne hn]
    | tasks n =>
      have hn : n ≠ k := fun h => hr' (h ▸ rfl)
      simp only [queue, setPool_pool, Function.update_of_ne hn]
    | link n | down n | arrived => rfl

end Traffic

/-! ### Deliveries -/

/-- The channel of a task. -/
def Task.channel : Task M → String
  | .publish channel _ _ => channel
  | .handle channel _ => channel

/-- What is delivered has the content of the task. A pub/sub server delivers `P2C`s, to all
subscribers but the one the message came from. -/
theorem Global.deliveries_eq_some {J : Jackson M} {g : Global M} {t : Task M}
    {agents : List Agent} {runnable : Queued M}
    (h : g.deliveries J t = (agents, some runnable)) :
    runnable.content J = t.content J ∧ agents.Nodup ∧
      (g.isPubSub = true → ∃ m c, runnable = .p2c m c) ∧
      ∀ agent, agent ∈ agents ↔
        agent ∈ g.subscribers t.channel ∧ (g.isPubSub = false ∨ t.except ≠ some agent) := by
  have hnodup : (g.subscribers t.channel).elems.Nodup := (g.subscribers t.channel).nodup
  cases t with
  | publish channel runme except =>
    simp only [deliveries] at h
    split at h
    next hpubSub =>
      obtain ⟨rfl, hrunnable⟩ := Prod.mk.inj h
      obtain rfl := Option.some.inj hrunnable
      refine ⟨?_, hnodup.filter _, fun _ => ⟨_, _, rfl⟩, fun agent => ?_⟩
      · rw [Queued.content, J.deserialize_serialize]
        rfl
      · rw [List.mem_filter, decide_eq_true_iff, hpubSub, Task.except, ne_comm (a := some agent)]
        simp only [Bool.true_eq_false, false_or]
        rfl
    next hpubSub =>
      obtain ⟨rfl, hrunnable⟩ := Prod.mk.inj h
      obtain rfl := Option.some.inj hrunnable
      refine ⟨rfl, hnodup, fun hp => absurd hp hpubSub, fun agent => ?_⟩
      exact (and_iff_left (.inl (Bool.eq_false_of_not_eq_true hpubSub))).symm
  | handle channel str =>
    have hall : ∀ agent : Agent, (Task.handle channel str : Task M).except ≠ some agent :=
      fun _ => (Option.some_ne_none _).symm
    simp only [deliveries] at h
    split at h
    next hpubSub =>
      obtain ⟨rfl, hrunnable⟩ := Prod.mk.inj h
      obtain rfl := Option.some.inj hrunnable
      exact ⟨rfl, hnodup, fun _ => ⟨_, _, rfl⟩, fun agent =>
        (and_iff_left (.inr (hall agent))).symm⟩
    next hpubSub =>
      obtain ⟨rfl, hrunnable⟩ := Prod.mk.inj h
      obtain ⟨m, hm, rfl⟩ := Option.map_eq_some_iff.mp hrunnable
      refine ⟨?_, hnodup, fun hp => absurd hp hpubSub, fun agent => ?_⟩
      · rw [Queued.content, Task.content, hm, Option.map_some]
      · exact (and_iff_left (.inr (hall agent))).symm

/-- Nothing is delivered of a text that cannot be read. -/
theorem Global.deliveries_eq_none {J : Jackson M} {g : Global M} {t : Task M}
    {agents : List Agent} (h : g.deliveries J t = (agents, none)) : t.content J = none := by
  cases t with
  | publish channel runme except =>
    simp only [deliveries] at h
    split at h
    · cases (Prod.mk.inj h).2
    · cases (Prod.mk.inj h).2
  | handle channel str =>
    simp only [deliveries] at h
    split at h
    · cases (Prod.mk.inj h).2
    · rw [Task.content, Option.map_eq_none_iff.mp (Prod.mk.inj h).2, Option.map_none]

theorem Task.channel_of_content {J : Jackson M} {t : Task M} {e : String × M}
    (h : e ∈ t.content J) : t.channel = e.1 := by
  cases t with
  | publish channel runme except => exact congrArg Prod.fst (Option.some.inj h)
  | handle channel str =>
    obtain ⟨m, -, hm⟩ := Option.map_eq_some_iff.mp h
    exact congrArg Prod.fst hm

theorem PubSubTree.childOf_link [DecidableEq N] {T : PubSubTree N} {n k : N}
    (hk : T.parent k = some n) : T.childOf n (T.link k) = some k := by
  cases h : T.childOf n (T.link k) with
  | none => exact absurd rfl (PubSubTree.childOf_eq_none h k hk)
  | some k' =>
    obtain ⟨hk', hlink⟩ := PubSubTree.childOf_eq_some h
    rw [T.link_inj n k' k hk' hk hlink]

/-! ### Steps of the tasks -/

namespace Traffic

variable [DecidableEq N] {T : PubSubTree N} {J : Jackson M} {F : String × M → Bool} {d : N}
  {a agent : Agent} {s t : Traffic N M} {n k p : N} {c : String} {m : M} {r : Station N} {i : ℕ}
  {task : Task M} {agents : List Agent} {runnable : Queued M} {g : Global M}
  {pool : List (Delivery M)} {except : Option Agent}

/-- Items with the same content and the same next hop. -/
theorem carried_heading_congr {x x' : Delivery M} (hcontent : x'.content J = x.content J)
    (hheads : ∀ e ∈ x.content J, F e = true →
      x'.heads (T.isPubSub n) (T.hop d a n) = x.heads (T.isPubSub n) (T.hop d a n)) :
    carried F (heading T J d a n) [x'] = carried F (heading T J d a n) [x] := by
  rw [carried_singleton, carried_singleton, heading, heading, hcontent]
  cases he : x.content J with
  | none => simp
  | some e =>
    cases hF : F e with
    | true => rw [hheads e he hF]
    | false => split <;> split <;> simp [Option.filter, hF]

/-- The task that reads the subscribers finds the next hop among them. -/
theorem queue_begin (hs : s.Sound T) (hF : ∀ e, F e = true → e.1 = c)
    (hhop : queue T J F d a s (.tasks n) ≠ [] → T.hop d a n ∈ (s.globals n).subscribers c)
    (hx : (s.pool n)[i]? = some (.task task))
    (h : (s.globals n).deliveries J task = (agents, some runnable)) :
    queue T J F d a (s.setPool n ((s.pool n).set i (.puts agents runnable))) =
      queue T J F d a s := by
  obtain ⟨hcontent, -, -, hagents⟩ := Global.deliveries_eq_some h
  funext r
  by_cases hr : r = .tasks n
  · subst hr
    rw [queue_setPool_self, queue]
    by_cases hn : T.Below d n
    · rw [if_pos hn, if_pos hn]
      refine carried_set_of_eq hx (carried_heading_congr hcontent fun e he hFe => ?_)
      have hheads := hagents (T.hop d a n)
      rw [hs.pubSub, Task.channel_of_content he, hF e hFe] at hheads
      by_cases htask : (Delivery.task task).heads (T.isPubSub n) (T.hop d a n) = true
      · have hne : queue T J F d a s (.tasks n) ≠ [] := by
          rw [queue, if_pos hn]
          refine carried_ne_nil hx ?_
          rw [carried_singleton, heading, if_pos htask, Option.mem_def.mp he, Option.filter,
            if_pos hFe]
          exact List.cons_ne_nil _ _
        rw [htask, Delivery.heads, decide_eq_true_iff, hheads]
        refine ⟨hhop hne, ?_⟩
        simpa [Delivery.heads] using htask
      · rw [Bool.eq_false_of_not_eq_true htask, Delivery.heads, decide_eq_false_iff_not, hheads]
        rintro ⟨-, hexcept⟩
        exact htask (by simpa [Delivery.heads] using hexcept)
    · rw [if_neg hn, if_neg hn]
  · exact queue_setPool_of_ne hr

/-- A task that has nothing left for the next hop ends. -/
theorem queue_end {x : Delivery M} (hx : (s.pool n)[i]? = some x)
    (hnil : carried F (heading T J d a n) [x] = []) :
    queue T J F d a (s.setPool n ((s.pool n).eraseIdx i)) = queue T J F d a s := by
  funext r
  by_cases hr : r = .tasks n
  · subst hr
    rw [queue_setPool_self, queue]
    split
    · have hhead := carried_eq_append_eraseIdx (F := F) (f := heading T J d a n) hx
        fun hany => absurd hany (carried_singleton_eq_nil.mp hnil)
      rw [hhead, hnil, List.nil_append]
    · rfl
  · exact queue_setPool_of_ne hr

theorem queue_put_arrived :
    queue T J F d a (s.put T n runnable agent) .arrived =
      queue T J F d a s .arrived ++
        if n = d ∧ agent = a then carried F (Queued.content J) [runnable] else [] := by
  simp only [queue, put]
  by_cases hn : n = d
  · subst hn
    rw [Function.update_self]
    by_cases ha : agent = a
    · subst ha
      rw [Function.update_self, carried_append, if_pos ⟨rfl, rfl⟩]
    · rw [Function.update_of_ne (Ne.symm ha), if_neg fun h => ha h.2, List.append_nil]
  · rw [Function.update_of_ne (Ne.symm hn), if_neg fun h => hn h.1, List.append_nil]

/-- A `P2C` for the agent of a link goes down. -/
theorem queue_put_down {m : String} (hk : T.parent k = some n) (hd : T.Below d k) :
    queue T J F d a (s.put T n (.p2c m c) (T.link k)) (.down k) =
      queue T J F d a s (.down k) ++ carried F (Queued.content J) [.p2c m c] := by
  simp only [queue, put, PubSubTree.childOf_link hk, Function.update_self, if_pos hd]
  rw [carried_append, carried_singleton, carried_singleton]
  rfl

theorem queue_put_of_ne
    (hdown : ∀ k, T.parent k = some n → T.link k = agent → T.Below d k → r ≠ .down k)
    (hr : r ≠ .arrived) :
    queue T J F d a (s.put T n runnable agent) r = queue T J F d a s r := by
  cases r with
  | down k =>
    by_cases hd : T.Below d k
    · have hputs : (s.put T n runnable agent).downlink k = s.downlink k := by
        cases hk' : T.childOf n agent with
        | none => simp only [put, hk']
        | some k' =>
          obtain ⟨hparent, hlink⟩ := PubSubTree.childOf_eq_some hk'
          have hne : k ≠ k' := by
            rintro rfl
            exact hdown k hparent hlink hd rfl
          cases runnable with
          | p2c m c => simp only [put, hk', Function.update_of_ne hne]
          | wrapper channel runme => simp only [put, hk']
      rw [queue, queue, hputs]
    · rw [queue, queue, if_neg hd, if_neg hd]
  | arrived => exact absurd rfl hr
  | link k | client k | tasks k => rfl

/-- A task puts its message on the `messageQ` of the next hop. -/
theorem advances_hop (hs : s.Sound T) (hn : T.Below d n)
    (hx : (s.pool n)[i]? = some (.puts (T.hop d a n :: agents) runnable))
    (hturn : s.InTurn J F (.pool n i)) :
    Advances T J F d a s ((s.setPool n ((s.pool n).set i (.puts agents runnable))).put T n runnable
      (T.hop d a n)) := by
  obtain ⟨hnodup, hp2c⟩ := hs.puts n _ _ (List.mem_of_getElem? hx)
  have hrest : carried F (heading T J d a n) [.puts agents runnable] = [] := by
    rw [carried_singleton, heading, if_neg]
    · rfl
    · simpa [Delivery.heads] using (List.nodup_cons.mp hnodup).1
  have hitem : carried F (heading T J d a n) [.puts (T.hop d a n :: agents) runnable] =
      carried F (Queued.content J) [runnable] := by
    rw [carried_singleton, carried_singleton, heading, if_pos]
    · rfl
    · simp [Delivery.heads]
  have hleaves : queue T J F d a s (.tasks n) = carried F (Queued.content J) [runnable] ++
      queue T J F d a (s.setPool n ((s.pool n).set i (.puts agents runnable))) (.tasks n) := by
    rw [queue_setPool_self, if_pos hn, queue, if_pos hn, carried_set_of_nil hx hrest, ← hitem]
    refine carried_eq_append_eraseIdx hx fun hany => ?_
    have hheading : ∀ y, ((heading T J d a n y).any F = true) → (y.content J).any F = true := by
      intro y hy
      rw [heading] at hy
      split at hy
      · exact hy
      · cases hy
    exact fun y hy hyF => hturn _ hx (hheading _ hany) y hy (hheading y hyF)
  cases hk : T.toward d n with
  | none =>
    obtain rfl := PubSubTree.toward_eq_none hn hk
    refine ⟨.tasks n, .arrived, carried F (Queued.content J) [runnable], ?_, ?_, ?_,
      fun r hr hr' => ?_⟩
    · exact congrArg some (by rw [hk, Option.elim_none])
    · rw [queue_put_of_ne (by simp) (by simp)]
      exact hleaves
    · rw [queue_put_arrived, if_pos ⟨rfl, PubSubTree.hop_self⟩, queue_setPool_of_ne (by simp)]
    · rw [queue_put_of_ne _ hr', queue_setPool_of_ne hr]
      intro k hparent _ hbelow
      rw [PubSubTree.toward_of_parent hparent hbelow] at hk
      cases hk
  | some k =>
    obtain ⟨hparent, hbelow⟩ := PubSubTree.toward_eq_some hk
    have hpubSub : T.isPubSub n = true :=
      PubSubTree.isPubSub_iff.mpr fun hleaf => hleaf k hparent
    obtain ⟨m, c, rfl⟩ := hp2c hpubSub
    refine ⟨.tasks n, .down k, carried F (Queued.content J) [.p2c m c], ?_, ?_, ?_,
      fun r hr hr' => ?_⟩
    · exact congrArg some (by rw [hk, Option.elim_some])
    · rw [queue_put_of_ne (by simp) (by simp)]
      exact hleaves
    · rw [PubSubTree.hop_of_parent hparent hbelow, queue_put_down hparent hbelow,
        queue_setPool_of_ne (by simp)]
    · by_cases harrived : r = .arrived
      · have hne : n ≠ d := by
          rintro rfl
          rw [PubSubTree.toward_self] at hk
          cases hk
        rw [harrived, queue_put_arrived, if_neg fun h => hne h.1, List.append_nil,
          queue_setPool_of_ne (by simp)]
      · rw [queue_put_of_ne _ harrived, queue_setPool_of_ne hr]
        intro k' hparent' _ hbelow'
        rwa [← Tree.child_unique hparent hparent' hbelow hbelow']

/-- A task puts its message on another `messageQ`. -/
theorem queue_other (hne : ¬(T.Below d n ∧ agent = T.hop d a n))
    (hx : (s.pool n)[i]? = some (.puts (agent :: agents) runnable)) :
    queue T J F d a ((s.setPool n ((s.pool n).set i (.puts agents runnable))).put T n runnable
      agent) = queue T J F d a s := by
  funext r
  have hpool : queue T J F d a (s.setPool n ((s.pool n).set i (.puts agents runnable))) r =
      queue T J F d a s r := by
    by_cases hr : r = .tasks n
    · subst hr
      rw [queue_setPool_self, queue]
      by_cases hn : T.Below d n
      · rw [if_pos hn, if_pos hn]
        refine carried_set_of_eq hx (carried_heading_congr rfl fun e _ _ => ?_)
        have hagent : T.hop d a n ≠ agent := fun h => hne ⟨hn, h.symm⟩
        simp [Delivery.heads, hagent]
      · rw [if_neg hn, if_neg hn]
    · exact queue_setPool_of_ne hr
  rw [← hpool]
  by_cases hr : r = .arrived
  · rw [hr, queue_put_arrived, if_neg, List.append_nil]
    rintro ⟨rfl, rfl⟩
    exact hne ⟨Tree.below_refl, PubSubTree.hop_self.symm⟩
  · refine queue_put_of_ne (fun k hparent hlink hbelow => ?_) hr
    refine absurd ⟨hbelow.trans (Tree.below_of_parent hparent), ?_⟩ hne
    rw [PubSubTree.hop_of_parent hparent hbelow, hlink]

theorem advances_pool (hs : s.Sound T) (hF : ∀ e, F e = true → e.1 = c)
    (hhop : queue T J F d a s (.tasks n) ≠ [] → T.hop d a n ∈ (s.globals n).subscribers c)
    (hturn : s.InTurn J F (.pool n i)) (h : s.runPool T J n i = some t) :
    Advances T J F d a s t := by
  obtain ⟨x, hx, rfl⟩ := Option.map_eq_some_iff.mp h
  cases x with
  | task task =>
    dsimp only
    split
    next agents runnable hdeliveries =>
      exact advances_of_eq (queue_begin hs hF hhop hx hdeliveries)
    next agents hdeliveries =>
      refine advances_of_eq (queue_end hx ?_)
      rw [carried_singleton, heading, Delivery.content, Global.deliveries_eq_none hdeliveries,
        ite_self]
      rfl
  | puts agents runnable =>
    cases agents with
    | nil =>
      refine advances_of_eq (queue_end hx ?_)
      rw [carried_singleton, heading, if_neg]
      · rfl
      · simp [Delivery.heads]
    | cons agent agents =>
      by_cases hmove : T.Below d n ∧ agent = T.hop d a n
      · obtain ⟨hn, rfl⟩ := hmove
        exact advances_hop hs hn hx hturn
      · exact advances_of_eq (queue_other hmove hx)

end Traffic

end Gwems
