import Gwems.Servers.PubSubTreeSubscriptions

/-!
# Delivery in the tree of servers

A message that is published at a leaf goes up to the root, and at every server on the way sideways
to the children it did not come from and down from there. Each message in flight on its behalf
answers for a part of the tree, its `territory`: a `d.Pub` for what is not below the server that
sent it, a task for what is below its server, less the child the message came from, and a `P2C`
for what is below the child it is for. Processing a message divides its territory among the
messages it gives rise to. So every leaf with a subscriber is at any time in the territory of one
message or has been served (`Underway`), and once nothing is in flight, it has been served once.

Nothing stays in flight: commands go up, and tasks and `P2C`s go down (`rank`).
-/

namespace Gwems

variable {M : Type*} {N : Type*}

namespace PubSubTree

variable [DecidableEq N] {T : PubSubTree N} {n k : N} {a : Agent}

theorem isPubSub_iff : T.isPubSub n = true ↔ ¬T.IsLeaf n := by
  rw [isPubSub, Tree.IsLeaf]
  rw [List.any_eq_true]
  push Not
  refine exists_congr fun k => ?_
  rw [decide_eq_true_iff]
  exact and_iff_right (T.mem_nodes k)

theorem childOf_eq_some (h : T.childOf n a = some k) : T.parent k = some n ∧ T.link k = a := by
  rw [childOf] at h
  exact of_decide_eq_true (List.find?_some (p := fun k => T.parent k = some n ∧ T.link k = a) h)

theorem childOf_eq_none (h : T.childOf n a = none) : ∀ k, T.parent k = some n → T.link k ≠ a := by
  intro k hk hlink
  exact List.find?_eq_none.mp h k (T.mem_nodes k) (decide_eq_true ⟨hk, hlink⟩)

end PubSubTree

/-- The agent that a task leaves out on a pub/sub server. -/
def Task.except : Task M → Option Agent
  | .publish _ _ except => except
  | .handle _ _ => none

namespace Network

variable {T : PubSubTree N} {J : Jackson M} {s t u : Network N M} {n p k v : N}
  {a : Agent} {c d : String} {m : M} {i : ℕ}

/-! ### Territories -/

/-- The messages in flight on behalf of a published message. -/
def Carries (J : Jackson M) (c : String) (m : M) : InFlight N M → Prop
  | .command _ cmd => cmd = .pub c m
  | .task _ (.publish channel runme _) => channel = c ∧ runme = m
  | .task _ (.handle channel str) => channel = c ∧ str = J.serialize m
  | .p2c _ _ channel str => channel = c ∧ str = J.serialize m

/-- The servers that a message in flight answers for. -/
def territory (T : PubSubTree N) : InFlight N M → Set N
  | .command n _ => {v | ¬T.Below v n}
  | .task n task => {v | T.Below v n ∧
      ∀ k, T.parent k = some n → task.except = some (T.link k) → ¬T.Below v k}
  | .p2c n agent _ _ => {v | ∃ k, T.parent k = some n ∧ T.link k = agent ∧ T.Below v k}

theorem mem_territory_command {cmd : Command M} :
    v ∈ territory T (.command n cmd) ↔ ¬T.Below v n := Iff.rfl

theorem mem_territory_task {task : Task M} :
    v ∈ territory T (.task n task) ↔ T.Below v n ∧
      ∀ k, T.parent k = some n → task.except = some (T.link k) → ¬T.Below v k := Iff.rfl

theorem mem_territory_p2c {str : String} :
    v ∈ territory (M := M) T (.p2c n a c str) ↔
      ∃ k, T.parent k = some n ∧ T.link k = a ∧ T.Below v k := Iff.rfl

open Classical in
/-- The number of messages that answer for a server. -/
noncomputable def answering (T : PubSubTree N) (v : N) (l : List (InFlight N M)) : ℕ :=
  l.countP fun x => v ∈ territory T x

theorem answering_append (l l' : List (InFlight N M)) :
    answering T v (l ++ l') = answering T v l + answering T v l' := List.countP_append ..

@[simp] theorem answering_nil : answering T v ([] : List (InFlight N M)) = 0 := rfl

theorem answering_of_mem {x : InFlight N M} (h : v ∈ territory T x) : answering T v [x] = 1 := by
  simp [answering, h]

theorem answering_of_not_mem {x : InFlight N M} (h : v ∉ territory T x) :
    answering T v [x] = 0 := by
  simp [answering, h]

/-- A server that publishes answers itself for what is below it. -/
theorem answering_publish_of_below (except : Option Agent) (hv : T.Below v n) :
    answering T v ((if (T.parent n).isSome then [.command n (.pub c m)] else []) ++
        [.task n (.publish c m except)]) =
      answering T v [InFlight.task n (.publish c m except)] := by
  have hup : answering T v [InFlight.command n (.pub c m)] = 0 :=
    answering_of_not_mem fun h => mem_territory_command.mp h hv
  rw [answering_append]
  split
  · rw [hup, Nat.zero_add]
  · rw [answering_nil, Nat.zero_add]

/-- The message it promotes answers for the rest, and there is no rest without a parent. -/
theorem answering_publish_of_not_below (except : Option Agent) (hv : ¬T.Below v n) :
    answering T v ((if (T.parent n).isSome then [.command n (.pub c m)] else []) ++
        [.task n (.publish c m except)]) = 1 := by
  have hparent : (T.parent n).isSome = true := by
    rw [Option.isSome_iff_ne_none]
    intro hnone
    rw [(T.parent_eq_none_iff n).mp hnone] at hv
    exact hv (Tree.below_root v)
  have hup : answering T v [InFlight.command n (.pub c m)] = 1 := answering_of_mem hv
  have htask : answering T v [InFlight.task n (.publish c m except)] = 0 :=
    answering_of_not_mem fun h => hv (mem_territory_task.mp h).1
  rw [answering_append, if_pos hparent, hup, htask]

/-- Of several `P2C`s on one server, those for the child above a server answer for it. -/
theorem answering_p2cs (hk : T.parent k = some n) (hv : T.Below v k) (agents : List Agent)
    (str : String) :
    answering T v (agents.map fun agent => (.p2c n agent c str : InFlight N M)) =
      agents.count (T.link k) := by
  classical
  rw [answering, List.countP_map, List.count]
  refine List.countP_congr fun agent _ => ?_
  rw [Function.comp_apply, decide_eq_true_iff, beq_iff_eq, mem_territory_p2c]
  constructor
  · rintro ⟨k', hk', rfl, hv'⟩
    rw [Tree.child_unique hk hk' hv hv']
  · rintro rfl
    exact ⟨k, hk, rfl, hv⟩

/-- None of them answers for a server that is not below theirs. -/
theorem answering_p2cs_of_not_below (hv : ¬T.Below v n) (agents : List Agent) (str : String) :
    answering T v (agents.map fun agent => (.p2c n agent c str : InFlight N M)) = 0 := by
  classical
  rw [answering, List.countP_eq_zero]
  intro x hx
  obtain ⟨agent, -, rfl⟩ := List.mem_map.mp hx
  rw [decide_eq_true_iff, mem_territory_p2c]
  rintro ⟨k, hk, -, hvk⟩
  exact hv (hvk.trans (Tree.below_of_parent hk))

/-- Every server with a subscriber has its link among the subscribers of its parent. -/
def Routed (T : PubSubTree N) (s : Network N M) (c : String) : Prop :=
  ∀ k p, T.parent k = some p → (s.globals k).session2channel.Occupied c →
    T.link k ∈ (s.globals p).subscribers c

/-- Then every server above one with a subscriber has one. -/
theorem Routed.occupied (h : s.Routed T c) (hbelow : T.Below v n)
    (hv : (s.globals v).session2channel.Occupied c) :
    (s.globals n).session2channel.Occupied c := by
  induction hbelow with
  | refl => exact hv
  | @tail k p _ hk ih => exact ⟨T.link k, Global.mem_subscribers.mp (h k p hk ih)⟩

/-- The subscribers of a server for a channel have got a message a number of times. -/
def Served (s t : Network N M) (v : N) (c : String) (m : M) (d : ℕ) : Prop :=
  ∀ a, t.messageQ v a = s.messageQ v a ++
    if a ∈ (s.globals v).subscribers c then List.replicate d (.wrapper c m) else []

theorem served_zero (h : t.messageQ = s.messageQ) : Served s t v c m 0 := by
  intro a
  rw [h, List.replicate_zero, ite_self, List.append_nil]

theorem Served.trans {d d' : ℕ} (h : Served s t v c m d) (hglobals : t.globals = s.globals)
    (h' : Served t u v c m d') : Served s u v c m (d + d') := by
  intro a
  rw [h' a, h a, hglobals, List.append_assoc]
  split
  · rw [List.replicate_add]
  · rfl

/-- What a task on behalf of a message delivers. -/
theorem deliveries_of_carries {task : Task M} (h : Carries J c m (.task n task : InFlight N M))
    (g : Global M) :
    g.deliveries J task =
      if g.isPubSub then
        ((g.subscribers c).elems.filter fun agent => some agent ≠ task.except,
          some (.p2c (J.serialize m) c))
      else ((g.subscribers c).elems, some (.wrapper c m)) := by
  cases task with
  | publish channel runme except =>
    obtain ⟨rfl, rfl⟩ := h
    rfl
  | handle channel str =>
    obtain ⟨rfl, rfl⟩ := h
    have hall : ((g.subscribers channel).elems.filter fun agent => some agent ≠ none) =
        (g.subscribers channel).elems := by
      rw [List.filter_eq_self]
      intro agent _
      exact decide_eq_true (Option.some_ne_none agent)
    simp only [Global.deliveries, J.deserialize_serialize, Option.map_some]
    rw [Task.except, hall]

variable [DecidableEq N]

/-! ### Termination -/

/-- Commands go up, tasks and `P2C`s go down, and commands become tasks. -/
def rank (T : PubSubTree N) (height : ℕ) : InFlight N M → ℕ
  | .command n _ => 2 * height + 2 + T.depth n
  | .task n _ => 2 * (height - T.depth n) + 1
  | .p2c n _ _ _ => 2 * (height - T.depth n)

/-- What a task puts in flight. -/
theorem runTask_flight (task : Task M) :
    ∃ (agents : List Agent) (runnable : Queued M), (s.runTask J n task).flight =
      s.flight ++ agents.flatMap fun agent => forwarded n agent runnable := by
  rw [runTask]
  split
  next agents runnable _ => exact ⟨agents, runnable, (foldl_put agents runnable s).2.2.1⟩
  next =>
    refine ⟨[], .p2c "" "", ?_⟩
    rw [List.flatMap_nil, List.append_nil]

/-- A message gives rise to messages of smaller ranks. -/
theorem process_rank {height : ℕ} (hheight : ∀ n, T.depth n ≤ height)
    (h : s.process T J i = some t) :
    ∃ x new, s.flight[i]? = some x ∧ (∀ y ∈ new, rank T height y < rank T height x) ∧
      t.flight = Flight.replace s.flight i new := by
  rcases process_cases h with
    ⟨n, cmd, hi, -, rfl⟩ | ⟨n, task, hi, rfl⟩ | ⟨n, agent, c, m, hi, rfl⟩
  · -- the parent has a smaller depth
    rw [runCommand]
    split
    next p hn =>
      have hdepth := T.depth_of_parent n p hn
      have hcommand : ∀ cmd' : Command M,
          rank T height (.command p cmd') < rank T height (.command n cmd) := by
        intro cmd'
        simp only [rank]
        omega
      have hsend : ∀ g : Global M, ∀ y ∈ (g.thePubSub.getD []).map (InFlight.command p),
          rank T height y < rank T height (.command n cmd) := by
        intro g y hy
        obtain ⟨cmd', -, rfl⟩ := List.mem_map.mp hy
        exact hcommand cmd'
      cases cmd with
      | sub c => exact ⟨_, _, hi, hsend _, rfl⟩
      | unsub c => exact ⟨_, _, hi, hsend _, rfl⟩
      | pub c m =>
        refine ⟨_, _, hi, fun y hy => ?_, List.append_assoc ..⟩
        rcases List.mem_append.mp hy with hy | hy
        · exact hsend _ y hy
        · obtain ⟨task, -, rfl⟩ := List.mem_map.mp hy
          simp only [rank]
          omega
    next => exact ⟨_, [], hi, fun y hy => absurd hy List.not_mem_nil, (List.append_nil _).symm⟩
  · obtain ⟨agents, runnable, hflight⟩ :=
      runTask_flight (s := { s with flight := s.flight.eraseIdx i }) (J := J) (n := n) task
    refine ⟨_, _, hi, fun y hy => ?_, hflight⟩
    obtain ⟨agent, -, hy⟩ := List.mem_flatMap.mp hy
    cases runnable with
    | p2c m c =>
      rw [forwarded, List.mem_singleton] at hy
      rw [hy]
      simp only [rank]
      omega
    | wrapper c m => exact absurd hy List.not_mem_nil
  · -- the child has a larger depth
    rw [runP2C]
    split
    next k hk =>
      have hdepth := T.depth_of_parent k n (PubSubTree.childOf_eq_some hk).1
      have hle := hheight k
      refine ⟨_, [.task k (.handle c m)], hi, fun y hy => ?_, rfl⟩
      rw [List.mem_singleton.mp hy]
      simp only [rank]
      omega
    next => exact ⟨_, [], hi, fun y hy => absurd hy List.not_mem_nil, (List.append_nil _).symm⟩

/-- The oldest message in flight can always be processed. -/
theorem flight_eq_nil (h : ∀ i, s.process T J i = none) : s.flight = [] := by
  rcases hflight : s.flight with _ | ⟨x, l⟩
  · rfl
  · have hzero := h 0
    have hnext : s.isNext 0 x = true := by
      cases x <;> rfl
    simp only [process, hflight, List.getElem?_cons_zero, Option.bind_some, hnext, if_true] at hzero
    cases x <;> exact absurd hzero (Option.some_ne_none _)

/-- **Everything in flight gets processed**, in whatever order: no infinite processing. -/
theorem wellFounded_processing (T : PubSubTree N) (J : Jackson M) :
    WellFounded fun t s : Network N M => ∃ i, (T.processing J).step s i = some t := by
  obtain ⟨height, hheight⟩ := Tree.exists_height T.toTree
  refine (InvImage.wf flight (Flight.wellFounded_replace (rank T height))).mono ?_
  rintro t s ⟨i, hi⟩
  obtain ⟨x, new, hx, hrank, hflight⟩ := process_rank hheight hi
  exact ⟨i, x, new, hx, hrank, hflight⟩

/-- From every state, processing leads to one with nothing in flight. -/
theorem exists_processed (T : PubSubTree N) (J : Jackson M) (s : Network N M) :
    ∃ t, (T.processing J).Reaches s t ∧ t.flight = [] := by
  obtain ⟨t, hst, ht⟩ := Machine.exists_stuck (wellFounded_processing T J) s
  exact ⟨t, hst, flight_eq_nil ht⟩

/-! ### One message -/

/-- With nothing in flight the links are subscribed. -/
theorem Consistent.routed (h : s.Consistent T) (hflight : s.flight = []) (c : String) :
    s.Routed T c := by
  intro k p hk hc
  have hmem := h.synced k p hk c hc
  rw [eventual, commands, hflight, List.filterMap_nil, Command.afterAll_nil] at hmem
  exact hmem

/-- The messages that a message gives rise to divide its territory: of a leaf with a subscriber,
one of them answers for it if the message does, unless it is served now. -/
def Divides (T : PubSubTree N) (J : Jackson M) (c : String) (m : M) (x : InFlight N M)
    (s t : Network N M) : Prop :=
  ∃ new, t.flight = s.flight ++ new ∧ (∀ y ∈ new, Carries J c m y) ∧
    ∀ v, T.IsLeaf v → ∃ d, Served s t v c m d ∧
      ((s.globals v).session2channel.Occupied c → answering T v new + d = answering T v [x])

/-- A `d.Pub`: the parent takes over what is not below the server that sent it. -/
theorem divides_command (h : s.Sound T) (hc : c.length ≠ 0) :
    Divides T J c m (.command n (.pub c m)) s (s.runCommand T n (.pub c m)) := by
  rw [runCommand]
  split
  next p hn =>
    refine ⟨_, publish_flight h c m _, ?_, fun v hv => ⟨0, served_zero rfl, fun _ => ?_⟩⟩
    · rw [if_neg hc]
      intro y hy
      rcases List.mem_append.mp hy with hy | hy
      · split at hy
        · rw [List.mem_singleton.mp hy]
          exact rfl
        · exact absurd hy List.not_mem_nil
      · rw [List.mem_singleton.mp hy]
        exact ⟨rfl, rfl⟩
    · rw [if_neg hc, Nat.add_zero]
      by_cases hvn : T.Below v n
      · have hvp : T.Below v p := hvn.trans (Tree.below_of_parent hn)
        have hnot : v ∉ territory T (.command n (.pub c m)) :=
          fun h => mem_territory_command.mp h hvn
        rw [answering_publish_of_below _ hvp, answering_of_not_mem hnot]
        exact answering_of_not_mem fun h => (mem_territory_task.mp h).2 n hn rfl hvn
      · have hmem : v ∈ territory T (.command n (.pub c m)) := hvn
        rw [answering_of_mem hmem]
        by_cases hvp : T.Below v p
        · rw [answering_publish_of_below _ hvp]
          refine answering_of_mem ⟨hvp, fun k hk hlink => ?_⟩
          rw [T.link_inj p k n hk hn (Option.some.inj hlink).symm]
          exact hvn
        · exact answering_publish_of_not_below _ hvp
  next hn =>
    refine ⟨[], (List.append_nil _).symm, fun y hy => absurd hy List.not_mem_nil, fun v hv =>
      ⟨0, served_zero rfl, fun _ => ?_⟩⟩
    have hbelow : T.Below v n := by
      rw [(T.parent_eq_none_iff n).mp hn]
      exact Tree.below_root v
    exact (answering_of_not_mem fun h => mem_territory_command.mp h hbelow).symm

/-- A task on a leaf serves the leaf. -/
theorem divides_task_leaf (h : s.Sound T) (hn : T.IsLeaf n) {task : Task M}
    (htask : Carries J c m (.task n task : InFlight N M)) :
    Divides T J c m (.task n task) s (s.runTask J n task) := by
  have hpubsub : (s.globals n).isPubSub = false := by
    rw [h.isPubSub, Bool.eq_false_iff, ne_eq, PubSubTree.isPubSub_iff, not_not]
    exact hn
  have hdeliveries := deliveries_of_carries htask (s.globals n)
  rw [hpubsub, if_neg Bool.false_ne_true] at hdeliveries
  rw [runTask]
  rw [hdeliveries]
  obtain ⟨-, -, hflight, hmessageQ⟩ :=
    foldl_put (n := n) ((s.globals n).subscribers c).elems (.wrapper c m) s
  refine ⟨[], ?_, fun y hy => absurd hy List.not_mem_nil, fun v hv => ?_⟩
  · have hnone : (((s.globals n).subscribers c).elems.flatMap fun agent =>
        forwarded n agent (.wrapper c m)) = ([] : List (InFlight N M)) :=
      List.flatMap_eq_nil_iff.mpr fun agent _ => rfl
    rw [hflight, hnone]
  · by_cases hvn : v = n
    · subst hvn
      refine ⟨1, fun a => ?_, fun _ => ?_⟩
      · rw [hmessageQ, if_pos rfl, List.replicate_one]
        congr 1
        split
        next ha =>
          rw [List.count_eq_one_of_mem (KSet.nodup _) ha, List.replicate_one]
        next ha =>
          rw [List.count_eq_zero_of_not_mem ha, List.replicate_zero]
      · have hmem : v ∈ territory T (.task v task) :=
          ⟨Tree.below_refl, fun k hk => absurd hk (hn k)⟩
        rw [answering_of_mem hmem, answering_nil]
    · refine ⟨0, fun a => ?_, fun _ => ?_⟩
      · rw [hmessageQ, if_neg hvn, List.replicate_zero, ite_self]
      · exact (answering_of_not_mem fun h =>
          hvn (hn.below_iff.mp (mem_territory_task.mp h).1)).symm

/-- A task on a pub/sub server puts a `P2C` in flight for each child that is subscribed and that
the message did not come from. -/
theorem divides_task_interior (h : s.Sound T) (hrouted : s.Routed T c) (hn : ¬T.IsLeaf n)
    {task : Task M} (htask : Carries J c m (.task n task : InFlight N M)) :
    Divides T J c m (.task n task) s (s.runTask J n task) := by
  have hpubsub : (s.globals n).isPubSub = true := by
    rw [h.isPubSub]
    exact PubSubTree.isPubSub_iff.mpr hn
  have hdeliveries := deliveries_of_carries htask (s.globals n)
  rw [hpubsub, if_pos rfl] at hdeliveries
  rw [runTask]
  rw [hdeliveries]
  set agents := ((s.globals n).subscribers c).elems.filter fun agent => some agent ≠ task.except
    with hagents
  obtain ⟨-, -, hflight, hmessageQ⟩ := foldl_put (n := n) agents (.p2c (J.serialize m) c) s
  have hnew : agents.flatMap (fun agent => forwarded n agent (.p2c (J.serialize m) c)) =
      agents.map fun agent => (.p2c n agent c (J.serialize m) : InFlight N M) :=
    (List.map_eq_flatMap ..).symm
  rw [hnew] at hflight
  refine ⟨_, hflight, fun y hy => ?_, fun v hv => ⟨0, fun a => ?_, fun hocc => ?_⟩⟩
  · obtain ⟨agent, -, rfl⟩ := List.mem_map.mp hy
    exact ⟨rfl, rfl⟩
  · have hvn : v ≠ n := by
      rintro rfl
      exact hn hv
    rw [hmessageQ, if_neg hvn, List.replicate_zero, ite_self]
  · by_cases hvn : T.Below v n
    · -- the child above the leaf is subscribed
      have hne : v ≠ n := by
        rintro rfl
        exact hn hv
      obtain ⟨k, hk, hvk⟩ := (Tree.below_iff.mp hvn).resolve_left hne
      have hlink : T.link k ∈ (s.globals n).subscribers c := hrouted k n hk (hrouted.occupied hvk hocc)
      rw [answering_p2cs hk hvk, Nat.add_zero]
      by_cases hexcept : task.except = some (T.link k)
      · have hnot : v ∉ territory T (.task n task) :=
          fun h => (mem_territory_task.mp h).2 k hk hexcept hvk
        rw [answering_of_not_mem hnot, hagents]
        refine List.count_eq_zero_of_not_mem fun hmem => ?_
        exact of_decide_eq_true (List.mem_filter.mp hmem).2 hexcept.symm
      · have hmem : v ∈ territory T (.task n task) := by
          refine ⟨hvn, fun k' hk' hlink' hvk' => hexcept ?_⟩
          rw [Tree.child_unique hk hk' hvk hvk']
          exact hlink'
        rw [answering_of_mem hmem, hagents]
        refine List.count_eq_one_of_mem ((KSet.nodup _).filter _) (List.mem_filter.mpr ⟨hlink, ?_⟩)
        exact decide_eq_true (Ne.symm hexcept)
    · have hnot : v ∉ territory T (.task n task) := fun h => hvn (mem_territory_task.mp h).1
      rw [answering_p2cs_of_not_below hvn, answering_of_not_mem hnot]

/-- A `P2C` is handed to the child it is for. -/
theorem divides_p2c {str : String} (hp2c : Carries J c m (.p2c n a d str : InFlight N M)) :
    Divides T J c m (.p2c n a d str) s (s.runP2C T n a d str) := by
  obtain ⟨rfl, rfl⟩ := hp2c
  rw [runP2C]
  split
  next k hk =>
    obtain ⟨hparent, rfl⟩ := PubSubTree.childOf_eq_some hk
    refine ⟨[.task k (.handle d (J.serialize m))], rfl, fun y hy => ?_, fun v hv =>
      ⟨0, served_zero rfl, fun _ => ?_⟩⟩
    · rw [List.mem_singleton.mp hy]
      exact ⟨rfl, rfl⟩
    · have hiff : v ∈ territory T (.task k (.handle d (J.serialize m)) : InFlight N M) ↔
          v ∈ territory T (.p2c n (T.link k) d (J.serialize m) : InFlight N M) := by
        rw [mem_territory_task, mem_territory_p2c]
        constructor
        · rintro ⟨hvk, -⟩
          exact ⟨k, hparent, rfl, hvk⟩
        · rintro ⟨k', hk', hlink, hvk⟩
          rw [T.link_inj n k' k hk' hparent hlink] at hvk
          exact ⟨hvk, fun _ _ h => absurd h (Option.some_ne_none _).symm⟩
      rw [Nat.add_zero]
      by_cases hv : v ∈ territory T (.p2c n (T.link k) d (J.serialize m) : InFlight N M)
      · rw [answering_of_mem hv, answering_of_mem (hiff.mpr hv)]
      · rw [answering_of_not_mem hv, answering_of_not_mem (hiff.not.mpr hv)]
  next hk =>
    refine ⟨[], (List.append_nil _).symm, fun y hy => absurd hy List.not_mem_nil, fun v hv =>
      ⟨0, served_zero rfl, fun _ => ?_⟩⟩
    refine (answering_of_not_mem fun h => ?_).symm
    obtain ⟨k, hparent, hlink, -⟩ := mem_territory_p2c.mp h
    exact PubSubTree.childOf_eq_none hk k hparent hlink

/-! ### All messages -/

/-- While a message published in `s` is on its way: every leaf with a subscriber is in the
territory of one message in flight or has been served. -/
structure Underway (T : PubSubTree N) (J : Jackson M) (c : String) (m : M) (s t : Network N M) :
    Prop where
  globals : t.globals = s.globals
  carries : ∀ x ∈ t.flight, Carries J c m x
  served : ∀ v, T.IsLeaf v → ∃ d, Served s t v c m d ∧
    ((s.globals v).session2channel.Occupied c → answering T v t.flight + d = 1)

omit [DecidableEq N] in
/-- A message is taken out and its territory divided. -/
theorem Underway.divides (h : Underway T J c m s t) {x : InFlight N M} (hi : t.flight[i]? = some x)
    (hglobals : u.globals = t.globals)
    (hdivides : Divides T J c m x { t with flight := t.flight.eraseIdx i } u) :
    Underway T J c m s u := by
  obtain ⟨new, hflight, hnew, hserved⟩ := hdivides
  refine ⟨hglobals.trans h.globals, fun y hy => ?_, fun v hv => ?_⟩
  · rw [hflight] at hy
    exact (Flight.mem_of_mem_replace hy).elim (h.carries y) (hnew y)
  · obtain ⟨d, hd, hone⟩ := h.served v hv
    obtain ⟨d', hd', hdivided⟩ := hserved v hv
    have htrans : Served t u v c m d' := hd'
    refine ⟨d + d', hd.trans h.globals htrans, fun hocc => ?_⟩
    have hcount : answering T v u.flight + answering T v [x] =
        answering T v t.flight + answering T v new := by
      rw [hflight]
      exact Flight.countP_replace hi _
    have hold := hone hocc
    have hnew' := hdivided (h.globals ▸ hocc)
    omega

theorem runCommand_pub_globals (h : s.Sound T) :
    (s.runCommand T n (.pub c m)).globals = s.globals := by
  rw [runCommand]
  split
  · exact publish_globals h c m _
  · rfl

/-- **Processing a message** keeps every leaf in one territory or served. -/
theorem underway_process (hs : s.Sound T) (hrouted : s.Routed T c) (hc : c.length ≠ 0)
    (h : Underway T J c m s t) (hprocess : t.process T J i = some u) : Underway T J c m s u := by
  rcases process_cases hprocess with
    ⟨n, cmd, hi, -, rfl⟩ | ⟨n, task, hi, rfl⟩ | ⟨n, agent, d, str, hi, rfl⟩
  all_goals
    have hcarries := h.carries _ (List.mem_of_getElem? hi)
    have hsound : Sound T { t with flight := t.flight.eraseIdx i } := hs.frame h.globals
  · obtain rfl := hcarries
    exact h.divides hi (runCommand_pub_globals hsound) (divides_command hsound hc)
  · refine h.divides hi (runTask_globals task) ?_
    by_cases hn : T.IsLeaf n
    · exact divides_task_leaf hsound hn hcarries
    · refine divides_task_interior hsound ?_ hn hcarries
      intro k p hk hocc
      rw [h.globals] at hocc ⊢
      exact hrouted k p hk hocc
  · exact h.divides hi (runP2C_globals str) (divides_p2c hcarries)

/-- The message that is published answers for the whole tree. -/
theorem underway_publish (hs : s.Sound T) (hflight : s.flight = []) (hc : c.length ≠ 0)
    (hn : T.IsLeaf n) : Underway T J c m s (s.publish n c m none) := by
  have hnew := publish_flight hs (n := n) c m none
  rw [hflight, List.nil_append, if_neg hc] at hnew
  refine ⟨publish_globals hs c m none, fun x hx => ?_, fun v hv => ⟨0, served_zero rfl, ?_⟩⟩
  · rw [hnew] at hx
    rcases List.mem_append.mp hx with hx | hx
    · split at hx
      · rw [List.mem_singleton.mp hx]
        exact rfl
      · exact absurd hx List.not_mem_nil
    · rw [List.mem_singleton.mp hx]
      exact ⟨rfl, rfl⟩
  · intro _
    rw [hnew, Nat.add_zero]
    by_cases hvn : T.Below v n
    · rw [answering_publish_of_below _ hvn]
      exact answering_of_mem ⟨hvn, fun k hk => absurd hk (hn k)⟩
    · exact answering_publish_of_not_below _ hvn

omit [DecidableEq N] in
/-- Once everything has been processed, the leaves have been served. -/
theorem Underway.messageQ (h : Underway T J c m s t) (hflight : t.flight = []) (hv : T.IsLeaf v)
    (a : Agent) :
    t.messageQ v a = s.messageQ v a ++
      if a ∈ (s.globals v).subscribers c then [.wrapper c m] else [] := by
  obtain ⟨d, hd, hone⟩ := h.served v hv
  rw [hd a]
  congr 1
  split
  next ha =>
    have hocc : (s.globals v).session2channel.Occupied c := ⟨a, Global.mem_subscribers.mp ha⟩
    have hcount := hone hocc
    rw [hflight, answering_nil, Nat.zero_add] at hcount
    rw [hcount, List.replicate_one]
  next => rfl

/-- Nobody is subscribed to the channel without a name. -/
theorem subscribedAfter_of_length_eq_zero (hc : c.length = 0) (calls : List (N × SubscriptionCall)) :
    subscribedAfter n a c calls = false := by
  rw [subscribedAfter]
  induction calls using List.reverseRecOn with
  | nil => rfl
  | append_singleton calls x ih =>
    rw [List.foldl_concat, ih]
    split
    next hx =>
      rcases x with ⟨k, b | b | b⟩
      next d =>
        by_cases hd : d = c
        · subst hd
          simp [SubscriptionCall.effect, hc]
        · simp [SubscriptionCall.effect, hd]
      next => rfl
      next => rfl
    next => rfl

end Network

namespace PubSubTree

open Network

section

variable [DecidableEq N] {T : PubSubTree N} {J : Jackson M} {s : Network N M} {n : N}

/-- **Exactly-once delivery in the tree.** Let the agents of the leaves call `subscribe`,
`unsubscribe` and `unsubscribeAgent` and publish, each time when all messages in flight have been
processed, and then let one publish a message at a leaf. Processing the messages in flight, in
whatever order, comes to an end; and at the end the message has been put once on the `messageQ` of
every agent of a leaf that the calls have left subscribed, and on no other. -/
theorem exactly_once (h : (T.machine J).Runs T.Sequential T.start s)
    (hflight : s.flight = []) (hn : T.IsLeaf n) (c : String) (m : M) :
    (∀ t, (T.processing J).Reaches (s.publish n c m none) t →
        ∃ u, (T.processing J).Reaches t u ∧ u.flight = []) ∧
      ∀ t, (T.processing J).Reaches (s.publish n c m none) t → t.flight = [] →
        ∀ v, T.IsLeaf v → ∀ a, t.messageQ v a = s.messageQ v a ++
          if subscribedAfter v a c s.calls then [.wrapper c m] else [] := by
  have hconsistent := consistent_of_runs h
  refine ⟨fun t _ => exists_processed T J t, fun t ht hdone v hv a => ?_⟩
  have hrecorded := hconsistent.recorded v hv a c
  by_cases hc : c.length = 0
  · have hnew := publish_flight hconsistent.sound (n := n) c m none
    rw [if_pos hc, hflight] at hnew
    have hsame : t = s.publish n c m none := by
      refine ht.invariant (I := fun t => t = s.publish n c m none) ?_ rfl
      rintro t u i rfl hi
      obtain ⟨x, hx, -⟩ := Option.bind_eq_some_iff.mp hi
      rw [hnew] at hx
      exact absurd hx (Option.some_ne_none x).symm
    rw [hsame, subscribedAfter_of_length_eq_zero hc, if_neg Bool.false_ne_true, List.append_nil]
    rfl
  · have hunderway : Underway T J c m s t := by
      refine ht.invariant (I := Underway T J c m s) ?_
        (underway_publish hconsistent.sound hflight hc hn)
      intro t u i ht hi
      exact underway_process hconsistent.sound (hconsistent.routed hflight c) hc ht hi
    rw [hunderway.messageQ hdone hv a]
    simp only [hrecorded]

end

/-- A root with two leaves. -/
def twoLeaves : PubSubTree (Fin 3) where
  nodes := [0, 1, 2]
  mem_nodes := by decide
  root := 0
  parent n := if n = 0 then none else some 0
  parent_eq_none_iff := by decide
  depth n := if n = 0 then 0 else 1
  depth_of_parent := by decide
  link n := ⟨n, if n = 1 then "link 1" else "link 2"⟩
  simple n := ⟨n + 2, dummyChannel⟩
  agents n := {⟨n + 4, if n = 1 then "agent 1" else "agent 2"⟩}
  key_simple _ := rfl
  link_inj _ k k' _ _ h := Fin.ext (congrArg Agent.id h)
  hash_inj n := by
    have hkeys : ∀ n : Fin 3, ∀ a ∈ ([⟨1, "link 1"⟩, ⟨2, "link 2"⟩, ⟨n + 2, dummyChannel⟩,
          ⟨n + 4, if n = 1 then "agent 1" else "agent 2"⟩] : List Agent),
        ∀ b ∈ ([⟨1, "link 1"⟩, ⟨2, "link 2"⟩, ⟨n + 2, dummyChannel⟩,
          ⟨n + 4, if n = 1 then "agent 1" else "agent 2"⟩] : List Agent),
        a.hash = b.hash → a = b := by decide
    have hlinks : ∀ k n : Fin 3, (if k = 0 then none else some (0 : Fin 3)) = some n →
        k = 1 ∨ k = 2 := by decide
    rintro a ha b hb
    refine hkeys n a ?_ b ?_
    · rcases ha with ⟨k, hk, rfl⟩ | ⟨-, rfl⟩ | ⟨-, rfl⟩
      · rcases hlinks k n hk with rfl | rfl <;> simp
      · simp
      · simp
    · rcases hb with ⟨k, hk, rfl⟩ | ⟨-, rfl⟩ | ⟨-, rfl⟩
      · rcases hlinks k n hk with rfl | rfl <;> simp
      · simp
      · simp

instance (s : Network (Fin 3) String) : ∀ action, Decidable (twoLeaves.Sequential s action)
  | .call n call =>
    inferInstanceAs (Decidable ((∀ k, twoLeaves.parent k ≠ some n) ∧
      call.agent = ⟨n + 4, if n = 1 then "agent 1" else "agent 2"⟩ ∧ s.flight = []))
  | .publish n _ _ =>
    inferInstanceAs (Decidable ((∀ k, twoLeaves.parent k ≠ some n) ∧ s.flight = []))
  | .process _ => inferInstanceAs (Decidable True)

/-- The agent of the first leaf subscribes, and a message is published at the second. -/
theorem exactly_once_twoLeaves :
    let J : Jackson String := ⟨id, some, fun _ => rfl⟩
    ∃ s t : Network (Fin 3) String,
      (twoLeaves.machine J).Runs twoLeaves.Sequential twoLeaves.start s ∧ s.flight = [] ∧
        twoLeaves.IsLeaf 2 ∧ (twoLeaves.processing J).Reaches (s.publish 2 "chan" "hi" none) t ∧
          t.flight = [] ∧
            t.messageQ 1 ⟨5, "agent 1"⟩ = s.messageQ 1 ⟨5, "agent 1"⟩ ++ [.wrapper "chan" "hi"] ∧
              t.messageQ 2 ⟨6, "agent 2"⟩ = s.messageQ 2 ⟨6, "agent 2"⟩ := by
  intro J
  have hrun : ∃ s : Network (Fin 3) String,
      (twoLeaves.machine J).Runs twoLeaves.Sequential twoLeaves.start s ∧ s.flight = [] ∧
        subscribedAfter 1 ⟨5, "agent 1"⟩ "chan" s.calls = true ∧
          subscribedAfter 2 ⟨6, "agent 2"⟩ "chan" s.calls = false :=
    Machine.Runs.exists_of_run [.process 0, .process 0,
      .call 1 (.subscribe ⟨5, "agent 1"⟩ "chan"), .process 0] (by decide +kernel)
  obtain ⟨s, hs, hflight, hone, htwo⟩ := hrun
  have hleaf : ∀ v : Fin 3, v ≠ 0 → twoLeaves.IsLeaf v := by
    unfold Tree.IsLeaf
    decide
  obtain ⟨hends, hqueues⟩ := exactly_once hs hflight (hleaf 2 (by decide)) "chan" "hi"
  obtain ⟨t, ht, hdone⟩ := hends _ .refl
  have hfirst := hqueues t ht hdone 1 (hleaf 1 (by decide)) ⟨5, "agent 1"⟩
  have hsecond := hqueues t ht hdone 2 (hleaf 2 (by decide)) ⟨6, "agent 2"⟩
  rw [hone, if_pos rfl] at hfirst
  rw [htwo, if_neg Bool.false_ne_true, List.append_nil] at hsecond
  exact ⟨s, t, hs, hflight, hleaf 2 (by decide), ht, hdone, hfirst, hsecond⟩

end PubSubTree

end Gwems
