import Gwems.Util.TimeoutCacheArmed
import Gwems.Util.TimeoutCacheTasks

/-!
# How often a callback starts

The callbacks of an entry are in its object, in tasks that have popped the object and have not
copied them, and in tasks that have copied them and not started them. `pending` counts all of them.
As long as no `put` and no `setTtl` puts the object back, a step that starts a callback takes it
from `pending`, and only `remove` and exceptions take any other (`pending_step`).
So over a whole run the callbacks that start are among those of the `put`, each of them as often as
there (`startedOf_le`), and all of them if nothing interferes (`startedOf_eq`).

`Idle` is a cache in which nothing is left to do at the time it is: a single callback that has not
been cancelled has started by then (`put_once`).
-/

namespace Gwems

namespace TimeoutCache

variable {V R : Type*} {s t u : TimeoutCache V R} {key k : String} {holder : ObjectHolder V}
  {r i : ℕ} {task : ExpiryTask R} {phase : TaskPhase R} {a : Action V R}

/-! ### Counting -/

/-- What a task still has to start for an object with these callbacks. -/
def owed (runners : List R) (r : ℕ) (task : ExpiryTask R) : Multiset R :=
  if task.head = some r then left runners task.phase else 0

/-- The callbacks of an object that have still to start. -/
def pending (s : TimeoutCache V R) (r : ℕ) : Multiset R :=
  (if r ∈ s.timedQ then ((s.timedKeys r).runners : Multiset R) else 0) +
    (s.tasks.map (owed (s.timedKeys r).runners r)).sum

/-- The callback of the key that a step starts. -/
def startsOf (key : String) (s : TimeoutCache V R) : Action V R → List R
  | .start i => (s.tasks[i]?.bind fun task =>
      if task.head.any fun r => (s.timedKeys r).key = key then next task.phase else none).toList
  | .tick _ | .put _ _ _ _ | .setTtl _ _ | .remove _ | .wake | .test | .poll | .copy _
  | .finish _ _ | .close _ => []

/-- The callbacks of the key that a schedule starts, in order. -/
def startedOf (key : String) (s : TimeoutCache V R) : List (Action V R) → List R
  | [] => []
  | a :: as => startsOf key s a ++ ((machine V R).step s a).elim [] fun t => startedOf key t as

/-- A step that does not put the object of the key back. -/
def LeftAlone (key : String) (_ : TimeoutCache V R) : Action V R → Prop
  | .put k _ _ _ | .setTtl k _ => k ≠ key
  | .tick _ | .remove _ | .wake | .test | .poll | .copy _ | .start _ | .finish _ _
  | .close _ => True

instance (key : String) (s : TimeoutCache V R) (a : Action V R) : Decidable (LeftAlone key s a) :=
  match a with
  | .put k _ _ _ | .setTtl k _ => inferInstanceAs (Decidable (k ≠ key))
  | .tick _ | .remove _ | .wake | .test | .poll | .copy _ | .start _ | .finish _ _
  | .close _ => isTrue trivial

/-- Any step but a `remove` of the key. -/
def NotRemoved (key : String) (_ : TimeoutCache V R) : Action V R → Prop
  | .remove k => k ≠ key
  | .tick _ | .put _ _ _ _ | .setTtl _ _ | .wake | .test | .poll | .copy _ | .start _ | .finish _ _
  | .close _ => True

instance (key : String) (s : TimeoutCache V R) (a : Action V R) : Decidable (NotRemoved key s a) :=
  match a with
  | .remove k => inferInstanceAs (Decidable (k ≠ key))
  | .tick _ | .put _ _ _ _ | .setTtl _ _ | .wake | .test | .poll | .copy _ | .start _ | .finish _ _
  | .close _ => isTrue trivial

theorem LeftAlone.notPut (h : LeftAlone key s a) : NotPut key s a := by
  cases a with
  | put k value ttl notified => exact h
  | _ => trivial

theorem owed_of_ne {runners : List R} (h : task.head ≠ some r) : owed runners r task = 0 := if_neg h

theorem owed_of_eq {runners : List R} (h : task.head = some r) :
    owed runners r task = left runners task.phase := if_pos h

theorem pending_congr (hq : r ∈ t.timedQ ↔ r ∈ s.timedQ) (hkeys : t.timedKeys r = s.timedKeys r)
    (htasks : t.tasks = s.tasks) : t.pending r = s.pending r := by
  simp only [pending, hq, hkeys, htasks]

/-- The first element goes from the queue to a task. -/
theorem pending_pollFirst (h : s.timedQ.Nodup) (time : ℤ) (r : ℕ) :
    (s.pollFirst time).pending r = s.pending r := by
  cases hq : s.timedQ with
  | nil => simp [pending, pollFirst, hq, owed]
  | cons x q =>
    rw [hq, List.nodup_cons] at h
    by_cases hx : x = r
    · subst hx
      simp [pending, pollFirst, hq, owed, left, h.1, add_comm]
    · simp [pending, pollFirst, hq, owed, hx, Ne.symm hx]

/-- A task that starts something takes it from what is pending. -/
theorem pending_setPhase (hi : s.tasks[i]? = some task) {new : Multiset R}
    (h : new + owed (s.timedKeys r).runners r { task with phase := phase } =
      owed (s.timedKeys r).runners r task) :
    new + (s.setPhase i task phase).pending r = s.pending r := by
  have hsum := sum_map_set (owed (s.timedKeys r).runners r) hi { task with phase := phase }
  rw [← h, ← add_assoc] at hsum
  have hrest := add_right_cancel hsum
  rw [pending, pending, ← hrest]
  exact (add_left_comm ..).trans (congrArg _ (add_comm ..))

/-- A task that ends with an exception drops what it has. -/
theorem pending_setPhase_dead_le (hi : s.tasks[i]? = some task) :
    (s.setPhase i task .dead).pending r ≤ s.pending r := by
  have hsum := sum_map_set (owed (s.timedKeys r).runners r) hi { task with phase := .dead }
  have hzero : owed (s.timedKeys r).runners r { task with phase := .dead } = 0 := by
    simp [owed, left]
  rw [hzero, add_zero] at hsum
  exact add_le_add le_rfl (le_self_add.trans hsum.le)

/-! ### Other keys -/

/-- Putting an object back leaves the other ones where they are. -/
theorem Owned.mem_timedQ_requeue_iff (ho : s.Owned) (hk : s.cache k = some holder)
    (hne : r ≠ holder.key) (ht : t.timedQ = (s.timedQ_remove holder.key).timedQ) :
    r ∈ (t.timedQ_add holder.key).timedQ ↔ r ∈ s.timedQ := by
  constructor
  · intro h
    exact mem_timedQ_of_mem_remove (ht ▸ (mem_timedQ_of_mem_add h).resolve_right hne)
  · intro h
    refine mem_timedQ_add_of_mem ?_ holder.key
    rw [ht]
    refine List.mem_filter.mpr ⟨h, ?_⟩
    rw [Bool.not_eq_true', Bool.eq_false_iff, ne_eq, Ordering.isEq_iff_eq_eq,
      ho.compare_eq_iff (ho.cached k holder hk).1 (ho.queued r h)]
    exact hne.symm

theorem Owned.pending_put (ho : s.Owned) (hk : s.cache key = some holder) (hne : k ≠ key)
    (value : Option V) (ttl : ℤ) (notified : List R) :
    (s.put k value ttl notified).pending holder.key = s.pending holder.key := by
  have href : holder.key ≠ s.put_ref k := ho.put_ref_ne hk hne.symm
  refine pending_congr ?_ ?_ put_tasks
  · cases hkv : s.cache k with
    | none =>
      exact ⟨fun h => (mem_timedQ_of_mem_put h).resolve_right href,
        fun h => mem_timedQ_put_of_mem hkv h ttl notified⟩
    | some holder' =>
      rw [TimeoutCache.put, put_tkey]
      rw [hkv]
      exact ho.mem_timedQ_requeue_iff hkv (ho.holder_ne hk hkv hne.symm) rfl
  · rw [put_timedKeys, Function.update_of_ne href]

theorem Owned.pending_setTtl (ho : s.Owned) (hk : s.cache key = some holder) (hne : k ≠ key)
    (ttl : ℤ) : (s.setTtl k ttl).pending holder.key = s.pending holder.key := by
  refine pending_congr ?_ (setTtl_timedKeys_of_ne ho hk hne.symm ttl) (setTtl_tasks ttl)
  cases hkv : s.cache k with
  | none => rw [setTtl_of_none hkv]
  | some holder' =>
    rw [TimeoutCache.setTtl]
    rw [hkv]
    exact ho.mem_timedQ_requeue_iff hkv (ho.holder_ne hk hkv hne.symm) rfl

theorem Owned.pending_remove (ho : s.Owned) (hk : s.cache key = some holder) (hne : k ≠ key) :
    (s.remove k).pending holder.key = s.pending holder.key := by
  cases hkv : s.cache k with
  | none => rw [remove_of_none hkv]
  | some holder' =>
    have hne' : holder.key ≠ holder'.key := ho.holder_ne hk hkv hne.symm
    refine pending_congr ?_ ?_ (remove_tasks s k)
    · rw [TimeoutCache.remove]
      rw [hkv]
      exact ho.mem_timedQ_requeue_iff hkv hne' rfl
    · rw [remove_of_some hkv]
      exact Function.update_of_ne hne' ..

/-- `remove` drops what no task has copied. -/
theorem pending_remove_self_le (hk : s.cache key = some holder) :
    (s.remove key).pending holder.key ≤ s.pending holder.key := by
  have hrunners : ((s.remove key).timedKeys holder.key).runners = [] := by
    rw [remove_of_some hk]
    simp only [Function.update_self]
  rw [pending, pending, hrunners, remove_tasks]
  refine add_le_add ?_ (List.sum_le_sum fun task _ => ?_)
  · rw [Multiset.coe_nil, ite_self]
    exact Multiset.zero_le _
  · rw [owed, owed]
    split
    · cases task.phase with
      | submitted => exact Multiset.zero_le _
      | _ => exact le_rfl
    · exact le_rfl

/-! ### What a step takes -/

/-- In a cache, the tasks of a key are those of its object. -/
theorem Owned.any_head_iff (ho : s.Owned) (hk : s.cache key = some holder) (hi : task ∈ s.tasks) :
    task.head.any (fun r => (s.timedKeys r).key = key) = true ↔ task.head = some holder.key := by
  obtain ⟨hlt, hkey⟩ := ho.cached key holder hk
  constructor
  · intro hany
    obtain ⟨r, hr, hrk⟩ := (Option.any_eq_true _ _).mp hany
    rw [hr, ho.ref_inj (ho.heads task hi r hr) hlt ((of_decide_eq_true hrk).trans hkey.symm)]
  · intro heq
    simp [heq, hkey]

/-- A start takes the callback that starts. -/
theorem Owned.pending_start (ho : s.Owned) (hk : s.cache key = some holder)
    (hst : (machine V R).step s (.start i) = some t) :
    (startsOf key s (.start i) : Multiset R) + t.pending holder.key = s.pending holder.key := by
  simp only [machine] at hst
  split at hst
  next head time x todo hi =>
    cases hst
    refine pending_setPhase hi ?_
    have hany := ho.any_head_iff hk (List.mem_of_getElem? hi)
    rw [startsOf, hi]
    by_cases hhead : head = some holder.key
    · rw [owed_of_eq hhead, owed_of_eq hhead, Option.bind_some, if_pos (hany.mpr hhead)]
      rfl
    · rw [owed_of_ne hhead, owed_of_ne hhead, Option.bind_some, if_neg (hhead ∘ hany.mp)]
      rfl
  next => cases hst

/-- What `copy` and `close` put a task into still has to start the same. -/
theorem pending_setPhase_congr (hi : s.tasks[i]? = some task)
    (h : task.head = some r → left (s.timedKeys r).runners phase =
      left (s.timedKeys r).runners task.phase) :
    (s.setPhase i task phase).pending r = s.pending r := by
  rw [← zero_add (pending _ r)]
  refine pending_setPhase hi ?_
  rw [zero_add]
  by_cases hhead : task.head = some r
  · simp only [owed, if_pos hhead, h hhead]
  · simp only [owed, if_neg hhead]

/-- **Conservation.** A step that starts a callback of the key takes it from what is pending, and
what is neither cancelled nor dropped by an exception stays pending. -/
theorem Owned.pending_step (ho : s.Owned) (hq : s.timedQ.Nodup) (hk : s.cache key = some holder)
    (ha : LeftAlone key s a) (hremove : NotRemoved key s a)
    (hthrow : ∀ i task, a = .finish i false → s.tasks[i]? = some task →
      task.head = some holder.key → left [] task.phase = [])
    (hst : (machine V R).step s a = some t) :
    (startsOf key s a : Multiset R) + t.pending holder.key = s.pending holder.key := by
  cases a with
  | start i => exact ho.pending_start hk hst
  | tick ms => cases hst; exact zero_add _
  | put k value ttl notified =>
    cases hst
    exact (zero_add _).trans (ho.pending_put hk ha value ttl notified)
  | setTtl k ttl => cases hst; exact (zero_add _).trans (ho.pending_setTtl hk ha ttl)
  | remove k =>
    cases hst
    exact (zero_add _).trans (ho.pending_remove hk hremove)
  | wake =>
    simp only [machine] at hst
    split at hst
    next => cases hst; exact zero_add _
    next => cases hst
  | test =>
    simp only [machine] at hst
    split at hst
    next => cases hst; exact zero_add _
    next => cases hst
  | poll =>
    simp only [machine] at hst
    split at hst
    next => cases hst; exact (zero_add _).trans (pending_pollFirst hq _ _)
    next => cases hst
  | copy i =>
    simp only [machine] at hst
    split at hst
    next head time hi =>
      cases hst
      refine (zero_add _).trans (pending_setPhase_congr hi fun hhead => ?_)
      rw [show head = some holder.key from hhead]
      rfl
    next => cases hst
  | finish i returns =>
    simp only [machine] at hst
    split at hst
    next head time x todo hi =>
      cases hst
      refine (zero_add _).trans (pending_setPhase_congr hi fun hhead => ?_)
      cases returns with
      | true => rfl
      | false => exact (hthrow i _ rfl hi hhead).symm
    next => cases hst
  | close i =>
    simp only [machine, expire_eq] at hst
    split at hst
    next head time hi =>
      cases hst
      exact (zero_add _).trans (pending_setPhase_congr hi fun _ => rfl)
    next => cases hst

/-- Nothing becomes pending. -/
theorem Owned.pending_step_le (ho : s.Owned) (hq : s.timedQ.Nodup) (hk : s.cache key = some holder)
    (ha : LeftAlone key s a) (hst : (machine V R).step s a = some t) :
    (startsOf key s a : Multiset R) + t.pending holder.key ≤ s.pending holder.key := by
  by_cases hremove : NotRemoved key s a
  · by_cases hthrow : ∃ i, a = .finish i false
    · obtain ⟨i, rfl⟩ := hthrow
      simp only [machine] at hst
      split at hst
      next hi => cases hst; exact (zero_add _).le.trans (pending_setPhase_dead_le hi)
      next => cases hst
    · exact (ho.pending_step hq hk ha hremove (fun i _ h => absurd ⟨i, h⟩ hthrow) hst).le
  · cases a with
    | remove k =>
      obtain rfl := not_not.mp hremove
      cases hst
      exact (zero_add _).le.trans (pending_remove_self_le hk)
    | _ => exact absurd trivial hremove

/-! ### Whole runs -/

/-- The entry of the key in a cache that a run has reached. -/
structure Held (s : TimeoutCache V R) (key : String) (holder : ObjectHolder V) : Prop where
  owned : s.Owned
  nodup : s.timedQ.Nodup
  cached : s.cache key = some holder

theorem Held.step (h : s.Held key holder) (ha : LeftAlone key s a)
    (hst : (machine V R).step s a = some t) : t.Held key holder :=
  ⟨h.owned.step hst, nodup_step h.nodup hst, (cache_step ha.notPut hst).trans h.cached⟩

theorem startedOf_cons_of_step (hst : (machine V R).step s a = some t) (as : List (Action V R)) :
    startedOf key s (a :: as) = startsOf key s a ++ startedOf key t as := by
  rw [startedOf, hst, Option.elim_some]

/-- **No callback starts more often than it was registered.** -/
theorem Held.startedOf_le (h : s.Held key holder) {as : List (Action V R)}
    (has : (machine V R).Along (LeftAlone key) s as) (hrun : (machine V R).run s as = some u) :
    (startedOf key s as : Multiset R) + u.pending holder.key ≤ s.pending holder.key := by
  induction as generalizing s with
  | nil =>
    rw [Machine.run_nil, Option.some.injEq] at hrun
    rw [hrun]
    exact (zero_add _).le
  | cons a as ih =>
    obtain ⟨t, hst, hrun⟩ := Machine.run_cons_eq_some.mp hrun
    obtain ⟨ha, has⟩ := (Machine.along_cons_of_step hst as).mp has
    rw [startedOf_cons_of_step hst, ← Multiset.coe_add, add_assoc]
    calc (startsOf key s a : Multiset R) + (startedOf key t as + u.pending holder.key)
        ≤ startsOf key s a + t.pending holder.key := add_le_add le_rfl (ih (h.step ha hst) has hrun)
      _ ≤ s.pending holder.key := h.owned.pending_step_le h.nodup h.cached ha hst

/-- Only `remove` changes the object of the key. -/
theorem Held.timedKeys_step (h : s.Held key holder) (ha : LeftAlone key s a)
    (hremove : NotRemoved key s a) (hst : (machine V R).step s a = some t) :
    t.timedKeys holder.key = s.timedKeys holder.key := by
  obtain ⟨ms, -, rfl⟩ | ⟨k, value, ttl, notified, rfl, rfl⟩ | ⟨k, ttl, rfl, rfl⟩ | ⟨k, rfl, rfl⟩ |
    ⟨watcher, rfl⟩ | ⟨time, -, rfl⟩ | ⟨i, task, phase, -, rfl, -⟩ := step_cases hst
  · rfl
  · rw [put_timedKeys, Function.update_of_ne (h.owned.put_ref_ne h.cached (Ne.symm ha))]
  · exact setTtl_timedKeys_of_ne h.owned h.cached (Ne.symm ha) ttl
  · cases hkv : s.cache k with
    | none => rw [remove_of_none hkv]
    | some holder' =>
      rw [remove_of_some hkv]
      exact Function.update_of_ne (h.owned.holder_ne h.cached hkv (Ne.symm hremove)) ..
  · rfl
  · rfl
  · rfl

theorem Held.timedKeys_run (h : s.Held key holder) {as : List (Action V R)}
    (has : (machine V R).Along (fun s a => LeftAlone key s a ∧ NotRemoved key s a) s as)
    (hrun : (machine V R).run s as = some u) :
    u.timedKeys holder.key = s.timedKeys holder.key := by
  induction as generalizing s with
  | nil =>
    rw [Machine.run_nil, Option.some.injEq] at hrun
    rw [hrun]
  | cons a as ih =>
    obtain ⟨t, hst, hrun⟩ := Machine.run_cons_eq_some.mp hrun
    obtain ⟨⟨ha, hremove⟩, has⟩ := (Machine.along_cons_of_step hst as).mp has
    exact (ih (h.step ha hst) has hrun).trans (h.timedKeys_step ha hremove hst)

/-- An object with one callback at most, and its tasks. -/
structure Single (s : TimeoutCache V R) (r : ℕ) : Prop where
  object : (s.timedKeys r).runners.length ≤ 1
  tasks : ∀ task ∈ s.tasks, task.head = some r → (held task.phase).length ≤ 1

theorem Single.congr (h : s.Single r) (hkeys : (t.timedKeys r).runners = (s.timedKeys r).runners)
    (htasks : t.tasks = s.tasks) : t.Single r :=
  ⟨hkeys ▸ h.object, htasks ▸ h.tasks⟩

theorem Single.step (h : s.Single holder.key) (hk : s.Held key holder) (ha : LeftAlone key s a)
    (hst : (machine V R).step s a = some t) : t.Single holder.key := by
  obtain ⟨ms, -, rfl⟩ | ⟨k, value, ttl, notified, rfl, rfl⟩ | ⟨k, ttl, -, rfl⟩ | ⟨k, -, rfl⟩ |
    ⟨watcher, rfl⟩ | ⟨time, -, rfl⟩ | ⟨i, task, phase, hi, rfl, hmove⟩ := step_cases hst
  · exact h.congr rfl rfl
  · refine h.congr ?_ put_tasks
    rw [put_timedKeys, Function.update_of_ne (hk.owned.put_ref_ne hk.cached (Ne.symm ha))]
  · exact h.congr (setTtl_runners ttl) (setTtl_tasks ttl)
  · cases hkv : s.cache k with
    | none => rwa [remove_of_none hkv]
    | some holder' =>
      rw [remove_of_some hkv]
      refine ⟨?_, h.tasks⟩
      by_cases hr : holder.key = holder'.key
      · simp [hr]
      · simpa [Function.update_of_ne hr] using h.object
  · exact h.congr rfl rfl
  · refine ⟨h.object, fun task htask hhead => ?_⟩
    rcases List.mem_append.mp htask with htask | htask
    · exact h.tasks task htask hhead
    · rw [List.mem_singleton.mp htask]
      exact Nat.zero_le 1
  · refine ⟨h.object, fun task' htask' hhead => ?_⟩
    rcases List.mem_or_eq_of_mem_set htask' with htask' | rfl
    · exact h.tasks task' htask' hhead
    · have hold := h.tasks task (List.mem_of_getElem? hi) hhead
      obtain ⟨-, rfl⟩ | ⟨x, todo, -, hphase, rfl⟩ | ⟨x, todo, hphase, rfl | rfl⟩ | ⟨-, rfl⟩ := hmove
      · rw [show task.head = some holder.key from hhead]
        exact h.object
      · rw [hphase] at hold
        exact hold
      · rw [hphase] at hold
        exact (Nat.le_succ _).trans hold
      · exact Nat.zero_le 1
      · exact Nat.zero_le 1

/-- A callback that throws has no other one behind it. -/
theorem Single.left_eq_nil (h : s.Single r) {x : R} {todo : List R} (hi : task ∈ s.tasks)
    (hhead : task.head = some r) (hphase : task.phase = .running (some x) todo) : todo = [] := by
  have hlen := h.tasks task hi hhead
  rw [hphase] at hlen
  exact List.length_eq_zero_iff.mp (Nat.le_zero.mp (Nat.le_of_succ_le_succ hlen))

/-- **A single callback is not lost** unless its key is removed. -/
theorem Held.startedOf_eq (h : s.Held key holder) (hsingle : s.Single holder.key)
    {as : List (Action V R)}
    (has : (machine V R).Along (fun s a => LeftAlone key s a ∧ NotRemoved key s a) s as)
    (hrun : (machine V R).run s as = some u) :
    (startedOf key s as : Multiset R) + u.pending holder.key = s.pending holder.key := by
  induction as generalizing s with
  | nil =>
    rw [Machine.run_nil, Option.some.injEq] at hrun
    rw [hrun]
    exact zero_add _
  | cons a as ih =>
    obtain ⟨t, hst, hrun⟩ := Machine.run_cons_eq_some.mp hrun
    obtain ⟨⟨ha, hremove⟩, has⟩ := (Machine.along_cons_of_step hst as).mp has
    rw [startedOf_cons_of_step hst, ← Multiset.coe_add, add_assoc,
      ih (h.step ha hst) (hsingle.step h ha hst) has hrun]
    refine h.owned.pending_step h.nodup h.cached ha hremove ?_ hst
    rintro i task rfl hi hhead
    simp only [machine, hi] at hst
    split at hst
    next heq =>
      obtain rfl := Option.some.inj heq
      exact hsingle.left_eq_nil (List.mem_of_getElem? hi) hhead rfl
    next => cases hst

/-- A new entry has its callbacks pending. -/
theorem Owned.pending_put_new (ho : s.Owned) (hk : s.cache key = none) (value : Option V) (ttl : ℤ)
    (notified : List R) :
    (s.put key value ttl notified).pending s.allocated = (notified : Multiset R) := by
  have hrunners : ((s.put key value ttl notified).timedKeys s.allocated).runners = notified := by
    rw [put_timedKeys, put_ref_of_none hk, Function.update_self]
  rw [pending, if_pos (mem_timedQ_put ho hk ttl notified), hrunners, put_tasks]
  refine add_eq_left.mpr (List.sum_eq_zero fun m hm => ?_)
  obtain ⟨task, htask, rfl⟩ := List.mem_map.mp hm
  exact owed_of_ne fun hhead => (ho.heads task htask _ hhead).false

/-- A new entry is on its own. -/
theorem Held.put_new (ho : s.Owned) (hq : s.timedQ.Nodup) (hk : s.cache key = none)
    (value : Option V) (ttl : ℤ) (notified : List R) :
    (s.put key value ttl notified).Held key { key := s.allocated, value := value } := by
  refine ⟨ho.put key value ttl notified, ?_, ?_⟩
  · exact nodup_step (a := .put key value ttl notified) hq rfl
  · rw [put_cache, Function.update_self, put_ref_of_none hk]

theorem Single.put_new (ho : s.Owned) (hk : s.cache key = none) (value : Option V) (ttl : ℤ)
    (callback : R) : (s.put key value ttl [callback]).Single s.allocated := by
  refine ⟨?_, fun task htask hhead => ?_⟩
  · rw [put_timedKeys, put_ref_of_none hk, Function.update_self]
    exact le_rfl
  · rw [put_tasks] at htask
    exact absurd (ho.heads task htask _ hhead) (lt_irrefl _)

/-! ### A cache at rest -/

/-- Nothing is left to do at the time it is: the watcher sleeps, no object is due, and every task
is over. -/
structure Idle (s : TimeoutCache V R) : Prop where
  watcher : s.watcher = .sleeping
  queue : ∀ r ∈ s.timedQ, s.now < (s.timedKeys r).expires
  tasks : ∀ task ∈ s.tasks, task.phase = .done ∨ task.phase = .dead

instance (s : TimeoutCache V R) [DecidableEq R] : Decidable s.Idle :=
  decidable_of_iff (s.watcher = .sleeping ∧ (∀ r ∈ s.timedQ, s.now < (s.timedKeys r).expires) ∧
      ∀ task ∈ s.tasks, task.phase = .done ∨ task.phase = .dead)
    ⟨fun h => ⟨h.1, h.2.1, h.2.2⟩, fun h => ⟨h.watcher, h.queue, h.tasks⟩⟩

/-- An idle cache has started what was due. -/
theorem Idle.pending_eq_zero (h : s.Idle) (hdue : (s.timedKeys r).expires ≤ s.now) :
    s.pending r = 0 := by
  rw [pending, if_neg fun hr => (h.queue r hr).not_ge hdue, zero_add]
  refine List.sum_eq_zero fun m hm => ?_
  obtain ⟨task, htask, rfl⟩ := List.mem_map.mp hm
  rw [owed]
  split
  · obtain hdone | hdead := h.tasks task htask
    · rw [hdone]; rfl
    · rw [hdead]; rfl
  · rfl

/-- The callback of a new entry starts at most once, and exactly once by the time that the cache is
idle after the deadline, unless its key is removed. -/
theorem put_once (h : (machine V R).Reaches {} s) (hk : s.cache key = none) {value : Option V}
    {ttl : ℤ} {callback : R} {as : List (Action V R)}
    (has : (machine V R).Along (LeftAlone key) (s.put key value ttl [callback]) as)
    (hrun : (machine V R).run (s.put key value ttl [callback]) as = some u) :
    (startedOf key (s.put key value ttl [callback]) as = [] ∨
      startedOf key (s.put key value ttl [callback]) as = [callback]) ∧
    ((machine V R).Along (NotRemoved key) (s.put key value ttl [callback]) as →
      s.now + ttl ≤ u.now → u.Idle →
      startedOf key (s.put key value ttl [callback]) as = [callback]) := by
  have ho := owned_of_reaches h
  have hheld := Held.put_new ho (nodup_of_reaches h) hk value ttl [callback]
  have hpending := ho.pending_put_new hk value ttl [callback]
  constructor
  · have hle := hheld.startedOf_le has hrun
    rw [hpending] at hle
    rcases Multiset.le_singleton.mp (le_self_add.trans hle) with hzero | hone
    · exact .inl ((Multiset.coe_eq_zero _).mp hzero)
    · exact .inr (Multiset.coe_eq_singleton.mp hone)
  · intro hremove hdue hidle
    have has' := Machine.along_and has hremove
    have heq := hheld.startedOf_eq (Single.put_new ho hk value ttl callback) has' hrun
    have hkeys := hheld.timedKeys_run has' hrun
    rw [put_timedKeys, put_ref_of_none hk, Function.update_self] at hkeys
    rw [hpending, hidle.pending_eq_zero (by rw [hkeys]; exact hdue), add_zero] at heq
    exact Multiset.coe_eq_singleton.mp heq

end TimeoutCache

end Gwems
