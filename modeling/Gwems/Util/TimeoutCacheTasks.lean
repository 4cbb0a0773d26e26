import Gwems.Util.TimeoutCacheFiring
import Gwems.Util.TimeoutCacheExpiry

/-!
# The pool tasks of a `TimeoutCache`

A pool task copies the callbacks of the object that it is for, and then runs the copies one after
the other, unguarded. So two things do not reach it any more.

`remove` takes the callbacks from the object, "No expire routines are run", but a task that has
copied them starts them all the same: `cancelled_iff` says that this is the only way in which a
callback of a removed key starts.

A callback that ends with an exception ends the task: `completes_iff` says that a task starts every
callback once, in order, and gets to its last block exactly if none of them throws.
-/

namespace Gwems

namespace TimeoutCache

variable {V R : Type*} {s t u : TimeoutCache V R} {key : String} {callback : R}

/-! ### Cancelled callbacks -/

/-- Any step but a `put` that registers the callback for the key. -/
def NotRegistered (key : String) (callback : R) (_ : TimeoutCache V R) : Action V R → Prop
  | .put k _ _ notified => k = key → callback ∉ notified
  | .tick _ | .setTtl _ _ | .remove _ | .wake | .test | .poll | .copy _ | .start _ | .finish _ _
  | .close _ => True

/-- The callbacks that a task has copied and not started. -/
theorem mem_left_of_next {phase : TaskPhase R} (h : next phase = some callback) :
    callback ∈ left [] phase := by
  unfold next at h
  split at h
  next => exact Option.some.inj h ▸ List.mem_cons_self
  next => cases h

/-- No object and no task of the key has the callback left to start. -/
structure Cancelled (s : TimeoutCache V R) (key : String) (callback : R) : Prop where
  owned : s.Owned
  objects : ∀ r < s.allocated, (s.timedKeys r).key = key → callback ∉ (s.timedKeys r).runners
  tasks : ∀ task ∈ s.tasks, ∀ r ∈ task.head, (s.timedKeys r).key = key →
    callback ∉ left [] task.phase

theorem Cancelled.not_aboutToStart (h : s.Cancelled key callback) :
    ¬s.AboutToStart key callback := by
  rintro ⟨task, htask, hnext, hhead⟩
  obtain ⟨r, hr, hkey⟩ := (Option.any_eq_true _ _).mp hhead
  exact h.tasks task htask r hr (of_decide_eq_true hkey) (mem_left_of_next hnext)

/-- Overwriting an object with one that has the same key, and not the callback. -/
theorem Cancelled.update (h : s.Cancelled key callback) (ht : t.Owned) {x : ℕ} {tkey : TimedKey R}
    (htasks : t.tasks = s.tasks) (hkeys : t.timedKeys = Function.update s.timedKeys x tkey)
    (hallocated : ∀ r < t.allocated, r < s.allocated ∨ r = x)
    (hkey : x < s.allocated → tkey.key = (s.timedKeys x).key)
    (hcallback : tkey.key = key → callback ∉ tkey.runners) : t.Cancelled key callback := by
  refine ⟨ht, fun r hr hrk => ?_, fun task htask r hr hrk => ?_⟩
  · rw [hkeys] at hrk ⊢
    by_cases hrx : r = x
    · rw [hrx, Function.update_self] at hrk ⊢
      exact hcallback hrk
    · rw [Function.update_of_ne hrx] at hrk ⊢
      exact h.objects r ((hallocated r hr).resolve_right hrx) hrk
  · rw [htasks] at htask
    refine h.tasks task htask r hr ?_
    rw [hkeys] at hrk
    by_cases hrx : r = x
    · subst hrx
      rw [Function.update_self, hkey (h.owned.heads task htask r hr)] at hrk
      exact hrk
    · rwa [Function.update_of_ne hrx] at hrk

/-- `put` writes to the object of its key, if the key has one. -/
theorem Owned.key_put_ref (h : s.Owned) {k : String} (hlt : s.put_ref k < s.allocated) :
    (s.timedKeys (s.put_ref k)).key = k := by
  cases hk : s.cache k with
  | some holder =>
    rw [put_ref_of_some hk]
    exact (h.cached k holder hk).2
  | none =>
    rw [put_ref_of_none hk] at hlt
    exact absurd hlt (lt_irrefl _)

/-- `put` makes no other object than the one it writes to. -/
theorem lt_or_eq_of_lt_put {k : String} {value : Option V} {ttl : ℤ} {notified : List R} {r : ℕ}
    (hr : r < (s.put k value ttl notified).allocated) : r < s.allocated ∨ r = s.put_ref k := by
  rw [put_allocated] at hr
  cases hk : s.cache k with
  | some holder =>
    rw [hk] at hr
    exact .inl hr
  | none =>
    rw [hk] at hr
    rw [put_ref_of_none hk]
    exact Nat.lt_succ_iff_lt_or_eq.mp hr

theorem Cancelled.put (h : s.Cancelled key callback) {k : String} {value : Option V} {ttl : ℤ}
    {notified : List R} (hput : k = key → callback ∉ notified) :
    (s.put k value ttl notified).Cancelled key callback :=
  h.update (h.owned.put k value ttl notified) put_tasks put_timedKeys
    (fun _ => lt_or_eq_of_lt_put) (fun hx => (h.owned.key_put_ref hx).symm) hput

theorem Cancelled.setTtl (h : s.Cancelled key callback) (k : String) (ttl : ℤ) :
    (s.setTtl k ttl).Cancelled key callback := by
  cases hk : s.cache k with
  | none => rwa [setTtl_of_none hk]
  | some holder =>
    have howned := h.owned.setTtl k ttl
    rw [setTtl_of_some hk] at howned ⊢
    exact h.update howned rfl rfl (fun r hr => .inl hr) (fun _ => rfl)
      (h.objects holder.key (h.owned.cached k holder hk).1)

theorem Cancelled.remove (h : s.Cancelled key callback) (k : String) :
    (s.remove k).Cancelled key callback := by
  cases hk : s.cache k with
  | none => rwa [remove_of_none hk]
  | some holder =>
    have howned := h.owned.remove k
    rw [remove_of_some hk] at howned ⊢
    exact h.update howned rfl rfl (fun r hr => .inl hr) (fun _ => rfl) fun _ => List.not_mem_nil

/-- A task of the key never gets the callback. -/
theorem Cancelled.setPhase (h : s.Cancelled key callback) {i : ℕ} {task : ExpiryTask R}
    {phase : TaskPhase R} (hi : s.tasks[i]? = some task)
    (hphase : ∀ r ∈ task.head, (s.timedKeys r).key = key → callback ∉ left [] phase) :
    (s.setPhase i task phase).Cancelled key callback := by
  refine ⟨h.owned.setPhase hi phase, h.objects, fun task' htask' => ?_⟩
  rcases List.mem_or_eq_of_mem_set htask' with htask' | rfl
  · exact h.tasks task' htask'
  · exact hphase

theorem Cancelled.step (h : s.Cancelled key callback) {a : Action V R}
    (ha : NotRegistered key callback s a) (hst : (machine V R).step s a = some t) :
    t.Cancelled key callback := by
  obtain ⟨ms, -, rfl⟩ | ⟨k, value, ttl, notified, rfl, rfl⟩ | ⟨k, ttl, -, rfl⟩ | ⟨k, -, rfl⟩ |
    ⟨watcher, rfl⟩ | ⟨time, -, rfl⟩ | ⟨i, task, phase, hi, rfl, hmove⟩ := step_cases hst
  · exact ⟨⟨h.owned.owned, h.owned.cached, h.owned.queued, h.owned.heads⟩, h.objects, h.tasks⟩
  · exact h.put ha
  · exact h.setTtl k ttl
  · exact h.remove k
  · exact ⟨⟨h.owned.owned, h.owned.cached, h.owned.queued, h.owned.heads⟩, h.objects, h.tasks⟩
  · refine ⟨h.owned.pollFirst time, h.objects, fun task htask => ?_⟩
    rcases List.mem_append.mp htask with htask | htask
    · exact h.tasks task htask
    · rw [List.mem_singleton.mp htask]
      exact fun _ _ _ => List.not_mem_nil
  · have hmem := List.mem_of_getElem? hi
    refine h.setPhase hi fun r hr hrk => ?_
    have hold := h.tasks task hmem r hr hrk
    obtain ⟨-, rfl⟩ | ⟨c, todo, -, hphase, rfl⟩ | ⟨c, todo, hphase, rfl | rfl⟩ | ⟨-, rfl⟩ := hmove
    · -- the task copies what the object has left
      rw [Option.mem_def.mp hr]
      exact h.objects r (h.owned.heads task hmem r hr) hrk
    · rw [hphase] at hold
      exact fun hc => hold (List.mem_cons_of_mem _ hc)
    · rw [hphase] at hold
      exact hold
    · exact List.not_mem_nil
    · exact List.not_mem_nil

/-- `remove` changes no key. -/
@[simp] theorem remove_key (s : TimeoutCache V R) (key : String) (r : ℕ) :
    ((s.remove key).timedKeys r).key = (s.timedKeys r).key := by
  cases hk : s.cache key with
  | none => rw [remove_of_none hk]
  | some holder =>
    rw [remove_of_some hk]
    by_cases hr : r = holder.key
    · subst hr
      simp only [Function.update_self]
    · simp only [Function.update_of_ne hr]

/-- `remove` leaves no callbacks for its key. -/
theorem Owned.remove_runners (h : s.Owned) {r : ℕ} (hr : r < s.allocated)
    (hkey : (s.timedKeys r).key = key) : ((s.remove key).timedKeys r).runners = [] := by
  obtain ⟨value, hk⟩ := h.owned r hr
  rw [hkey] at hk
  rw [remove_of_some hk]
  simp only [Function.update_self]

/-- `remove` cancels the callbacks that no task has copied. -/
theorem Owned.cancelled_remove (h : s.Owned)
    (htasks : ∀ task ∈ s.tasks, ∀ r ∈ task.head, (s.timedKeys r).key = key →
      callback ∉ left [] task.phase) : (s.remove key).Cancelled key callback := by
  refine ⟨h.remove key, fun r hr hkey => ?_, fun task htask r hr hkey => ?_⟩
  · rw [remove_allocated] at hr
    rw [remove_key] at hkey
    rw [h.remove_runners hr hkey]
    exact List.not_mem_nil
  · rw [remove_tasks] at htask
    rw [remove_key] at hkey
    exact htasks task htask r hr hkey

/-- A task that has copied callbacks and not started all of them can start the next one. -/
theorem exists_runs_start {task : ExpiryTask R} {i r : ℕ} (hi : s.tasks[i]? = some task)
    (hr : r ∈ task.head) (hkey : (s.timedKeys r).key = key) {todo : List R}
    (hleft : left [] task.phase = callback :: todo) :
    ∃ u, (machine V R).Runs (NotRegistered key callback) s u ∧ u.AboutToStart key callback := by
  obtain ⟨head, time, phase⟩ := task
  obtain rfl : head = some r := hr
  have habout : ∀ u : TimeoutCache V R, u.timedKeys = s.timedKeys →
      ⟨some r, time, .running none (callback :: todo)⟩ ∈ u.tasks → u.AboutToStart key callback :=
    fun u hu hmem => ⟨_, hmem, rfl, by simp [hu, hkey]⟩
  cases phase with
  | submitted => cases hleft
  | done => cases hleft
  | dead => cases hleft
  | running current rest =>
    obtain rfl : rest = callback :: todo := hleft
    cases current with
    | none => exact ⟨s, .refl, habout s rfl (List.mem_of_getElem? hi)⟩
    | some c =>
      -- the callback that is running returns
      have hst : (machine V R).step s (.finish i true) = some (s.setPhase i
          ⟨some r, time, .running (some c) (callback :: todo)⟩
          (.running none (callback :: todo))) := by
        simp [machine, hi]
      refine ⟨_, .tail .refl (show NotRegistered key callback s (.finish i true) from trivial) hst,
        habout _ rfl ?_⟩
      exact List.mem_set (List.getElem?_eq_some_iff.mp hi).1 _

/-- **What `remove` cancels.** In every state of the cache: after `remove` for a key no callback of
the key starts in any run, unless a `put` registers it again, exactly if no pool task for the key
has copied callbacks that it has not started yet. -/
theorem cancelled_iff (h : (machine V R).Reaches {} s) (key : String) :
    (∀ callback u, (machine V R).Runs (NotRegistered key callback) (s.remove key) u →
      ¬u.AboutToStart key callback) ↔
    ∀ task ∈ s.tasks, ∀ r ∈ task.head, (s.timedKeys r).key = key → left [] task.phase = [] := by
  have howned := owned_of_reaches h
  constructor
  · intro hall task htask r hr hkey
    obtain ⟨i, hi⟩ := List.mem_iff_getElem?.mp htask
    cases hleft : left [] task.phase with
    | nil => rfl
    | cons callback todo =>
      have hi' : (s.remove key).tasks[i]? = some task := by rwa [remove_tasks]
      obtain ⟨u, hu, hstart⟩ :=
        exists_runs_start hi' hr ((remove_key s key r).trans hkey) hleft
      exact absurd hstart (hall callback u hu)
  · intro hleft callback u hu
    have hcancelled : (s.remove key).Cancelled key callback :=
      howned.cancelled_remove fun task htask r hr hkey => by
        rw [hleft task htask r hr hkey]
        exact List.not_mem_nil
    have hend : u.Cancelled key callback :=
      hu.invariant (I := fun u => u.Cancelled key callback) (fun ha hs hst => hs.step ha hst)
        hcancelled
    exact hend.not_aboutToStart

/-- A timer that is removed before it is due. -/
theorem cancelled_iff_timer :
    let s := ({} : TimeoutCache String String).put "k" (some "v") 1 ["callback"]
    (∀ callback u, (machine String String).Runs (NotRegistered "k" callback) (s.remove "k") u →
      ¬u.AboutToStart "k" callback) ↔
    ∀ task ∈ s.tasks, ∀ r ∈ task.head, (s.timedKeys r).key = "k" → left [] task.phase = [] :=
  cancelled_iff (Machine.Reaches.refl.tail (a := .put "k" (some "v") 1 ["callback"]) rfl) "k"

/-- The first of two callbacks removes its own key, and the second one starts. -/
theorem removed_callback_starts :
    ¬∀ (s u : TimeoutCache String String) (key callback : String),
      (machine String String).Reaches {} s →
      (machine String String).Runs (NotRegistered key callback) (s.remove key) u →
      ¬u.AboutToStart key callback := by
  intro hall
  obtain ⟨s, hs, htask⟩ := Machine.Reaches.exists_of_run (m := machine String String) (s := {})
    (P := fun s => s.tasks[0]? = some ⟨some 0, 1, .running (some "first") ["second"]⟩ ∧
      (s.timedKeys 0).key = "k")
    [.put "k" (some "v") 1 ["first", "second"], .tick 1, .wake, .test, .poll, .copy 0, .start 0]
    (by decide)
  have htask' : (s.remove "k").tasks[0]? =
      some ⟨some 0, 1, .running (some "first") ["second"]⟩ := by
    rw [remove_tasks]
    exact htask.1
  obtain ⟨u, hu, hstart⟩ := exists_runs_start htask' rfl ((remove_key s "k" 0).trans htask.2) rfl
  exact hall s u "k" "second" hs hu hstart

/-! ### The queue -/

theorem nodup_timedQ_add (h : s.timedQ.Nodup) (r : ℕ) : (s.timedQ_add r).timedQ.Nodup := by
  simp only [timedQ_add]
  split
  next => exact h
  next hany =>
    have hr : r ∉ s.timedQ := fun hr => hany (List.any_eq_true.mpr ⟨r, hr, by
      simp [compare, TimedKey.compare_self]⟩)
    exact (List.perm_orderedInsert _ r s.timedQ).nodup_iff.mpr (List.nodup_cons.mpr ⟨hr, h⟩)

theorem nodup_timedQ_remove (h : s.timedQ.Nodup) (r : ℕ) : (s.timedQ_remove r).timedQ.Nodup :=
  h.filter _

/-- An object is in `timedQ` once. -/
theorem nodup_step (h : s.timedQ.Nodup) {a : Action V R} (hst : (machine V R).step s a = some t) :
    t.timedQ.Nodup := by
  obtain ⟨ms, -, rfl⟩ | ⟨k, value, ttl, notified, -, rfl⟩ | ⟨k, ttl, -, rfl⟩ | ⟨k, -, rfl⟩ |
    ⟨watcher, rfl⟩ | ⟨time, -, rfl⟩ | ⟨i, task, phase, -, rfl, -⟩ := step_cases hst
  · exact h
  · have hq : (s.put_tkey k).2.timedQ.Nodup := by
      rw [put_tkey]
      cases s.cache k with
      | some holder => exact nodup_timedQ_remove h holder.key
      | none => exact h
    refine nodup_timedQ_add ?_ _
    exact hq
  · rw [setTtl]
    cases s.cache k with
    | some holder =>
      refine nodup_timedQ_add ?_ _
      exact nodup_timedQ_remove h holder.key
    | none => exact h
  · rw [remove]
    cases s.cache k with
    | some holder =>
      refine nodup_timedQ_add ?_ _
      exact nodup_timedQ_remove h holder.key
    | none => exact h
  · exact h
  · exact h.sublist (List.tail_sublist _)
  · exact h

theorem nodup_of_reaches (h : (machine V R).Reaches {} s) : s.timedQ.Nodup :=
  h.invariant (I := fun s => s.timedQ.Nodup) (fun hs hst => nodup_step hs hst) List.nodup_nil

/-! ### One task -/

/-- The callback that a step starts in a task. -/
def starts (i : ℕ) (s : TimeoutCache V R) : Action V R → List R
  | .start j => if j = i then (s.tasks[i]?.bind fun task => next task.phase).toList else []
  | .tick _ | .put _ _ _ _ | .setTtl _ _ | .remove _ | .wake | .test | .poll | .copy _
  | .finish _ _ | .close _ => []

/-- The callbacks that a schedule starts in a task, in order. -/
def started (i : ℕ) (s : TimeoutCache V R) : List (Action V R) → List R
  | [] => []
  | a :: as => starts i s a ++ (((machine V R).step s a).elim [] fun t => started i t as)

/-- What one step does to a task that is for the object `head`. -/
inductive TaskMoves (s : TimeoutCache V R) (i : ℕ) (head : Option ℕ) :
    Action V R → TaskPhase R → TaskPhase R → Prop
  | rests {a : Action V R} {phase : TaskPhase R} (h : starts i s a = []) :
    TaskMoves s i head a phase phase
  | copies : TaskMoves s i head (.copy i) .submitted (s.copied head)
  | starts {r : R} {todo : List R} (h : starts i s (.start i) = [r]) :
    TaskMoves s i head (.start i) (.running none (r :: todo)) (.running (some r) todo)
  | returns {r : R} {todo : List R} :
    TaskMoves s i head (.finish i true) (.running (some r) todo) (.running none todo)
  | throws {r : R} {todo : List R} :
    TaskMoves s i head (.finish i false) (.running (some r) todo) .dead
  | closes : TaskMoves s i head (.close i) (.running none []) .done

/-- A task that another one's step leaves alone. -/
theorem setPhase_getElem?_of_ne {i j : ℕ} (hij : j ≠ i) (task : ExpiryTask R)
    (phase : TaskPhase R) : (s.setPhase j task phase).tasks[i]? = s.tasks[i]? :=
  List.getElem?_set_ne hij

theorem setPhase_getElem?_self {i : ℕ} {task : ExpiryTask R} (hi : s.tasks[i]? = some task)
    (phase : TaskPhase R) :
    (s.setPhase i task phase).tasks[i]? = some { task with phase := phase } :=
  List.getElem?_set_self (List.getElem?_eq_some_iff.mp hi).1

/-- The phase of one task changes: that of the task in question, or of another one. -/
theorem exists_phase_setPhase {i j : ℕ} {task task' : ExpiryTask R} {phase : TaskPhase R}
    {a : Action V R} (hi : s.tasks[i]? = some task) (hj : s.tasks[j]? = some task')
    (hmoves : TaskMoves s j task'.head a task'.phase phase) (hrests : j ≠ i → starts i s a = []) :
    ∃ phase', (s.setPhase j task' phase).tasks[i]? = some { task with phase := phase' } ∧
      TaskMoves s i task.head a task.phase phase' := by
  by_cases hji : j = i
  · subst hji
    obtain rfl := Option.some.inj (hi.symm.trans hj)
    exact ⟨phase, setPhase_getElem?_self hj _, hmoves⟩
  · exact ⟨task.phase, (setPhase_getElem?_of_ne hji _ _).trans hi, .rests (hrests hji)⟩

/-- A step leaves a task alone, or is the next thing in its life. -/
theorem task_step {i : ℕ} {task : ExpiryTask R} (hi : s.tasks[i]? = some task) {a : Action V R}
    (hst : (machine V R).step s a = some t) :
    ∃ phase, t.tasks[i]? = some { task with phase := phase } ∧
      TaskMoves s i task.head a task.phase phase := by
  have hrests : t.tasks[i]? = s.tasks[i]? → starts i s a = [] →
      ∃ phase, t.tasks[i]? = some { task with phase := phase } ∧
        TaskMoves s i task.head a task.phase phase :=
    fun htasks hstarts => ⟨task.phase, htasks.trans hi, .rests hstarts⟩
  cases a with
  | tick ms => cases hst; exact hrests rfl rfl
  | put k value ttl notified => cases hst; exact hrests (by rw [put_tasks]) rfl
  | setTtl k ttl => cases hst; exact hrests (by rw [setTtl_tasks]) rfl
  | remove k => cases hst; exact hrests (by rw [remove_tasks]) rfl
  | wake =>
    simp only [machine] at hst
    split at hst
    next => cases hst; exact hrests rfl rfl
    next => cases hst
  | test =>
    simp only [machine] at hst
    split at hst
    next => cases hst; exact hrests rfl rfl
    next => cases hst
  | poll =>
    simp only [machine] at hst
    split at hst
    next =>
      cases hst
      exact hrests (List.getElem?_append_left (List.getElem?_eq_some_iff.mp hi).1) rfl
    next => cases hst
  | copy j =>
    simp only [machine] at hst
    split at hst
    next head time hj =>
      cases hst
      exact exists_phase_setPhase hi hj .copies fun _ => rfl
    next => cases hst
  | start j =>
    simp only [machine] at hst
    split at hst
    next head time r todo hj =>
      cases hst
      refine exists_phase_setPhase hi hj (.starts ?_) fun hji => if_neg hji
      simp [TimeoutCache.starts, hj, next]
    next => cases hst
  | finish j returns =>
    simp only [machine] at hst
    split at hst
    next head time r todo hj =>
      cases hst
      refine exists_phase_setPhase hi hj ?_ fun _ => rfl
      cases returns with
      | true => exact .returns
      | false => exact .throws
    next => cases hst
  | close j =>
    simp only [machine, expire_eq] at hst
    split at hst
    next head time hj =>
      cases hst
      exact exists_phase_setPhase hi hj .closes fun _ => rfl
    next => cases hst

/-- The callback that is running in a task. -/
def current : TaskPhase R → Option R
  | .running current _ => current
  | .submitted | .done | .dead => none

/-- The callbacks that throw end with an exception, and the others return. -/
def Follows (throws : R → Bool) (s : TimeoutCache V R) : Action V R → Prop
  | .finish i returns => ∀ task ∈ s.tasks[i]?, ∀ r ∈ current task.phase, returns = !throws r
  | .tick _ | .put _ _ _ _ | .setTtl _ _ | .remove _ | .wake | .test | .poll | .copy _ | .start _
  | .close _ => True

instance (throws : R → Bool) (s : TimeoutCache V R) (a : Action V R) :
    Decidable (Follows throws s a) :=
  match a with
  | .finish i returns => inferInstanceAs (Decidable (∀ task ∈ s.tasks[i]?,
      ∀ r ∈ current task.phase, returns = !throws r))
  | .tick _ | .put _ _ _ _ | .setTtl _ _ | .remove _ | .wake | .test | .poll | .copy _ | .start _
  | .close _ => isTrue trivial

/-- How far a task is that has copied the callbacks `runList` and started `ran` of them. -/
inductive Progress (throws : R → Bool) (runList : List R) : List R → TaskPhase R → Prop
  | between {ran todo : List R} (hall : ran ++ todo = runList)
    (hreturn : ∀ r ∈ ran, throws r = false) : Progress throws runList ran (.running none todo)
  | inside {ran todo : List R} {r : R} (hall : ran ++ r :: todo = runList)
    (hreturn : ∀ r ∈ ran, throws r = false) :
    Progress throws runList (ran ++ [r]) (.running (some r) todo)
  | done (hreturn : ∀ r ∈ runList, throws r = false) : Progress throws runList runList .done
  | dead {ran todo : List R} {r : R} (hall : ran ++ r :: todo = runList) (hthrow : throws r = true) :
    Progress throws runList (ran ++ [r]) .dead

variable {throws : R → Bool} {runList ran : List R}

theorem Progress.of_done (h : Progress throws runList ran .done) :
    ran = runList ∧ ∀ r ∈ runList, throws r = false := by
  cases h with
  | done hreturn => exact ⟨rfl, hreturn⟩

theorem Progress.of_dead (h : Progress throws runList ran .dead) :
    ∃ r ∈ runList, throws r = true := by
  cases h with
  | dead hall hthrow => exact ⟨_, hall ▸ List.mem_append_right _ List.mem_cons_self, hthrow⟩

/-- One step of a task gets on with the list. -/
theorem Progress.moves {i : ℕ} {head : Option ℕ} {a : Action V R} {phase phase' : TaskPhase R}
    (h : Progress throws runList ran phase) (hmove : TaskMoves s i head a phase phase')
    (hfollows : ∀ returns, a = .finish i returns →
      ∀ r ∈ current phase, returns = !throws r) :
    Progress throws runList (ran ++ starts i s a) phase' := by
  cases hmove with
  | rests hstarts => rwa [hstarts, List.append_nil]
  | copies => cases h
  | starts hstarts =>
    cases h with
    | between hall hreturn =>
      rw [hstarts]
      exact .inside hall hreturn
  | returns =>
    cases h with
    | inside hall hreturn =>
      have hr := hfollows true rfl _ rfl
      rw [show starts i s (.finish i true) = [] from rfl, List.append_nil]
      refine .between (by simpa using hall) fun c hc => ?_
      rcases List.mem_append.mp hc with hc | hc
      · exact hreturn c hc
      · rw [List.mem_singleton.mp hc]
        simpa using hr.symm
  | throws =>
    cases h with
    | inside hall hreturn =>
      have hr := hfollows false rfl _ rfl
      rw [show starts i s (.finish i false) = [] from rfl, List.append_nil]
      exact .dead hall (by simpa using hr.symm)
  | closes =>
    cases h with
    | between hall hreturn =>
      rw [List.append_nil] at hall
      subst hall
      rw [show starts i s (.close i) = [] from rfl, List.append_nil]
      exact .done hreturn

/-- A run gets on with the list. -/
theorem Progress.run {i : ℕ} {task : ExpiryTask R} (hi : s.tasks[i]? = some task)
    (h : Progress throws runList ran task.phase) {as : List (Action V R)}
    (hfollows : (machine V R).Along (Follows throws) s as)
    (hrun : (machine V R).run s as = some u) :
    ∃ phase, u.tasks[i]? = some { task with phase := phase } ∧
      Progress throws runList (ran ++ started i s as) phase := by
  induction as generalizing s ran task with
  | nil =>
    rw [Machine.run_nil, Option.some.injEq] at hrun
    subst hrun
    exact ⟨task.phase, hi, by simpa [started] using h⟩
  | cons a as ih =>
    obtain ⟨t, hst, hrun⟩ := Machine.run_cons_eq_some.mp hrun
    obtain ⟨phase, ht, hmove⟩ := task_step hi hst
    have hnext := h.moves hmove fun returns ha r hr => by
      subst ha
      exact hfollows.1 task hi r hr
    obtain ⟨phase', hu, hend⟩ := ih ht hnext (hfollows.2 t hst) hrun
    refine ⟨phase', hu, ?_⟩
    rw [started, hst, Option.elim_some, ← List.append_assoc]
    exact hend

/-- The task is over. -/
def Ended (s : TimeoutCache V R) (i : ℕ) : Prop :=
  ∃ task, s.tasks[i]? = some task ∧ (task.phase = .done ∨ task.phase = .dead)

/-- The task has got to its last block. -/
def Closed (s : TimeoutCache V R) (i : ℕ) : Prop :=
  ∃ task, s.tasks[i]? = some task ∧ task.phase = .done

/-- Left to itself, a task comes to its end. -/
theorem exists_run_ended {i : ℕ} {head : Option ℕ} {time : ℤ} (throws : R → Bool) (todo : List R) :
    ∀ {s : TimeoutCache V R}, s.tasks[i]? = some ⟨head, time, .running none todo⟩ →
      ∃ as u, (machine V R).run s as = some u ∧ (machine V R).Along (Follows throws) s as ∧
        u.Ended i := by
  induction todo with
  | nil =>
    intro s hi
    have hst : (machine V R).step s (.close i) =
        some (s.setPhase i ⟨head, time, .running none []⟩ .done) := by
      simp [machine, hi]
    refine ⟨[.close i], _, Machine.run_cons_of_step hst [], ⟨trivial, fun _ _ => trivial⟩, ?_⟩
    exact ⟨_, setPhase_getElem?_self hi _, .inl rfl⟩
  | cons r todo ih =>
    intro s hi
    have hst : (machine V R).step s (.start i) =
        some (s.setPhase i ⟨head, time, .running none (r :: todo)⟩ (.running (some r) todo)) := by
      simp [machine, hi]
    generalize ht : s.setPhase i ⟨head, time, .running none (r :: todo)⟩ (.running (some r) todo) =
      t at hst
    have hti : t.tasks[i]? = some ⟨head, time, .running (some r) todo⟩ := by
      rw [← ht]
      exact setPhase_getElem?_self hi _
    have hst' : (machine V R).step t (.finish i (!throws r)) =
        some (t.setPhase i ⟨head, time, .running (some r) todo⟩
          (if !throws r then .running none todo else .dead)) := by
      simp [machine, hti]
    have hfollows : Follows throws t (.finish i (!throws r)) := by
      intro task htask c hc
      obtain rfl := Option.some.inj (hti.symm.trans htask)
      rw [Option.some.inj hc]
    cases hthrow : throws r with
    | true =>
      rw [hthrow] at hst' hfollows
      refine ⟨[.start i, .finish i false], _, ?_, ?_, _, setPhase_getElem?_self hti _, .inr rfl⟩
      · rw [Machine.run_cons_of_step hst]
        exact Machine.run_cons_of_step hst' []
      · rw [Machine.along_cons_of_step hst]
        exact ⟨trivial, (Machine.along_cons_of_step hst' []).mpr ⟨hfollows, trivial⟩⟩
    | false =>
      rw [hthrow] at hst' hfollows
      obtain ⟨as, u, hrun, halong, hend⟩ := ih (setPhase_getElem?_self hti _)
      refine ⟨.start i :: .finish i true :: as, u, ?_, ?_, hend⟩
      · rw [Machine.run_cons_of_step hst]
        exact (Machine.run_cons_of_step hst' as).trans hrun
      · rw [Machine.along_cons_of_step hst]
        exact ⟨trivial, (Machine.along_cons_of_step hst' as).mpr ⟨hfollows, halong⟩⟩

/-- **What a task completes.** A task that copies the callbacks of an object can be run to its end.
However it is run to its end, in whatever company: it has started every callback once, in order, and
got to its last block, exactly if none of the callbacks throws. -/
theorem completes_iff (throws : R → Bool) {i r : ℕ} {task : ExpiryTask R}
    (hi : s.tasks[i]? = some task) (hr : task.head = some r)
    (hcopy : (machine V R).step s (.copy i) = some t) :
    (∃ as u, (machine V R).run t as = some u ∧ (machine V R).Along (Follows throws) t as ∧
      u.Ended i) ∧
    ∀ as u, (machine V R).run t as = some u → (machine V R).Along (Follows throws) t as →
      u.Ended i →
      ((started i t as = (s.timedKeys r).runners ∧ u.Closed i) ↔
        ∀ callback ∈ (s.timedKeys r).runners, throws callback = false) := by
  obtain ⟨head, time, phase⟩ := task
  obtain rfl : head = some r := hr
  have hcopied : t.tasks[i]? = some ⟨some r, time, .running none (s.timedKeys r).runners⟩ := by
    simp only [machine, hi] at hcopy
    split at hcopy
    next heq =>
      obtain ⟨rfl, rfl, rfl⟩ := ExpiryTask.mk.inj (Option.some.inj heq)
      obtain rfl := Option.some.inj hcopy
      exact setPhase_getElem?_self hi _
    next => cases hcopy
  refine ⟨exists_run_ended throws _ hcopied, fun as u hrun halong hend => ?_⟩
  obtain ⟨phase', hu, hprogress⟩ :=
    Progress.run hcopied (.between (List.nil_append _) (fun _ h => absurd h List.not_mem_nil))
      halong hrun
  obtain ⟨task', htask', hphase⟩ := hend
  obtain rfl := Option.some.inj (hu.symm.trans htask')
  constructor
  · rintro ⟨-, task'', htask'', hdone⟩
    obtain rfl := Option.some.inj (hu.symm.trans htask'')
    obtain rfl : phase' = .done := hdone
    exact hprogress.of_done.2
  · intro hreturn
    rcases hphase with hdone | hdead
    · obtain rfl : phase' = .done := hdone
      exact ⟨hprogress.of_done.1, _, hu, rfl⟩
    · obtain rfl : phase' = .dead := hdead
      obtain ⟨c, hc, hthrow⟩ := hprogress.of_dead
      rw [hreturn c hc] at hthrow
      cases hthrow

end TimeoutCache

end Gwems
