import Gwems.Util.TimeoutCacheExpiry

/-!
# Entries whose callback has still to start

A cache is used with one callback for each entry, and the callback is expected to start once the
deadline of the entry has passed. `Entry` says what a `put` leaves for its key, and stays true.
`Waits` says that the callback is still to come: the object is in `timedQ`, or a pool task has
popped it and has not started the callback yet. The only way out of `Waits` is the start of the
callback (`Waits.step`), and only `setTtl` moves the deadline in the meantime (`deadline_step`).

`Punctual` is what it means that timers fire when due: the clock does not pass the deadline of a
queued object, and does not move while a popped task has a callback to start. Under a punctual
clock the time never passes the deadline of a waiting entry (`Waits.le_deadline`).
-/

namespace Gwems

namespace TimeoutCache

variable {V R : Type*} {s t : TimeoutCache V R} {key k : String} {value : Option V} {callback : R}
  {r : ℕ}

/-- The entry that `put(key, value, ttl, callback)` leaves, with its object. -/
def Entry (s : TimeoutCache V R) (key : String) (value : Option V) (callback : R) (r : ℕ) : Prop :=
  s.cache key = some { key := r, value := value } ∧ (s.timedKeys r).runners = [callback]

/-- The callback of an object has still to start. -/
def Waits (s : TimeoutCache V R) (r : ℕ) (callback : R) : Prop :=
  r ∈ s.timedQ ∨
    ∃ task ∈ s.tasks, task.head = some r ∧
      (task.phase = .submitted ∨ next task.phase = some callback)

/-- The deadline of the entry of a key. -/
def deadline (s : TimeoutCache V R) (key : String) : ℤ :=
  (s.cache key).elim 0 fun holder => (s.timedKeys holder.key).expires

/-- The clock may move on: no queued deadline is passed, and no task has a callback to start. -/
def Punctual (s : TimeoutCache V R) (ms : ℕ) : Prop :=
  (∀ r ∈ s.timedQ, s.now + ms ≤ (s.timedKeys r).expires) ∧
    ∀ task ∈ s.tasks, task.phase ≠ .submitted ∧ next task.phase = none

instance [DecidableEq R] (s : TimeoutCache V R) (ms : ℕ) : Decidable (s.Punctual ms) :=
  inferInstanceAs (Decidable ((∀ r ∈ s.timedQ, s.now + ms ≤ (s.timedKeys r).expires) ∧
    ∀ task ∈ s.tasks, task.phase ≠ .submitted ∧ next task.phase = none))

theorem Entry.deadline_eq (h : s.Entry key value callback r) :
    s.deadline key = (s.timedKeys r).expires := by
  rw [deadline, h.1]
  rfl

/-- `put` gives its key a deadline. -/
theorem deadline_put (ttl : ℤ) (notified : List R) :
    (s.put key value ttl notified).deadline key = s.now + ttl := by
  rw [deadline, put_cache, Function.update_self, Option.elim_some, put_timedKeys,
    Function.update_self]

/-- A waiting entry's deadline is not passed. -/
theorem Waits.le_deadline {ms : ℕ} (hw : s.Waits r callback) (h : s.Entry key value callback r)
    (hp : s.Punctual ms) : s.now + ms ≤ s.deadline key := by
  rw [h.deadline_eq]
  rcases hw with hr | ⟨task, htask, -, hphase⟩
  · exact hp.1 r hr
  · obtain ⟨hsubmitted, hnext⟩ := hp.2 task htask
    rw [hnext] at hphase
    exact absurd hphase (by simp [hsubmitted])

/-! ### What a step does to an entry -/

theorem setTtl_timedKeys_of_ne (h : s.Owned) {holder : ObjectHolder V}
    (hk : s.cache key = some holder) (hne : key ≠ k) (ttl : ℤ) :
    (s.setTtl k ttl).timedKeys holder.key = s.timedKeys holder.key := by
  cases hkv : s.cache k with
  | none => rw [setTtl_of_none hkv]
  | some holder' =>
    rw [setTtl_of_some hkv]
    exact Function.update_of_ne (h.holder_ne hk hkv hne) ..

theorem setTtl_runners (ttl : ℤ) :
    ((s.setTtl k ttl).timedKeys r).runners = (s.timedKeys r).runners := by
  cases hkv : s.cache k with
  | none => rw [setTtl_of_none hkv]
  | some holder =>
    rw [setTtl_of_some hkv]
    by_cases hr : r = holder.key
    · rw [hr]
      simp only [Function.update_self]
    · simp only [Function.update_of_ne hr]

/-- Only `tick` moves the clock. -/
theorem now_step {a : Action V R} (ha : ∀ ms, a ≠ .tick ms) (hst : (machine V R).step s a = some t) :
    t.now = s.now := by
  obtain ⟨ms, rfl, -⟩ | ⟨k, value', ttl, notified, -, rfl⟩ | ⟨k, ttl, -, rfl⟩ | ⟨k, -, rfl⟩ |
    ⟨watcher, rfl⟩ | ⟨time, -, rfl⟩ | ⟨i, task, phase, -, rfl, -⟩ := step_cases hst
  · exact absurd rfl (ha ms)
  · exact put_now
  · exact setTtl_now ttl
  · exact remove_now
  · rfl
  · rfl
  · rfl

/-- A step that does not touch the entry of the key with `put` or `remove`. -/
def Keeps (key : String) (s : TimeoutCache V R) (a : Action V R) : Prop :=
  NotPut key s a ∧ ∀ k, a ≠ .remove k

/-- The entry of a `put` stays, with its object and its callback. -/
theorem Entry.step (h : s.Entry key value callback r) (ho : s.Owned) {a : Action V R}
    (ha : Keeps key s a) (hst : (machine V R).step s a = some t) :
    t.Entry key value callback r := by
  refine ⟨(cache_step ha.1 hst).trans h.1, ?_⟩
  obtain ⟨ms, -, rfl⟩ | ⟨k, value', ttl, notified, rfl, rfl⟩ | ⟨k, ttl, -, rfl⟩ | ⟨k, rfl, -⟩ |
    ⟨watcher, rfl⟩ | ⟨time, -, rfl⟩ | ⟨i, task, phase, -, rfl, -⟩ := step_cases hst
  · exact h.2
  · have hne : r ≠ s.put_ref k := ho.put_ref_ne h.1 (Ne.symm ha.1)
    rw [put_timedKeys, Function.update_of_ne hne]
    exact h.2
  · rw [setTtl_runners]
    exact h.2
  · exact absurd rfl (ha.2 k)
  · exact h.2
  · exact h.2
  · exact h.2

/-- Only `setTtl` for the key moves its deadline. -/
theorem deadline_step (h : s.Entry key value callback r) (ho : s.Owned) {a : Action V R}
    (ha : Keeps key s a) (hst : (machine V R).step s a = some t) :
    t.deadline key = s.deadline key ∨
      ∃ ttl, a = .setTtl key ttl ∧ t.deadline key = s.now + ttl := by
  rw [(h.step ho ha hst).deadline_eq, h.deadline_eq]
  obtain ⟨ms, -, rfl⟩ | ⟨k, value', ttl, notified, rfl, rfl⟩ | ⟨k, ttl, rfl, rfl⟩ | ⟨k, rfl, -⟩ |
    ⟨watcher, rfl⟩ | ⟨time, -, rfl⟩ | ⟨i, task, phase, -, rfl, -⟩ := step_cases hst
  · exact .inl rfl
  · have hne : r ≠ s.put_ref k := ho.put_ref_ne h.1 (Ne.symm ha.1)
    rw [put_timedKeys, Function.update_of_ne hne]
    exact .inl rfl
  · by_cases hkey : key = k
    · subst hkey
      refine .inr ⟨ttl, rfl, ?_⟩
      rw [setTtl_of_some h.1]
      simp only [Function.update_self]
    · rw [setTtl_timedKeys_of_ne ho h.1 hkey]
      exact .inl rfl
  · exact absurd rfl (ha.2 k)
  · exact .inl rfl
  · exact .inl rfl
  · exact .inl rfl

/-! ### The callback is not lost -/

theorem mem_timedQ_add_of_mem (h : r ∈ s.timedQ) (r' : ℕ) : r ∈ (s.timedQ_add r').timedQ := by
  simp only [timedQ_add]
  split
  · exact h
  · exact (List.mem_orderedInsert _).mpr (.inr h)

/-- `setTtl` leaves a queued object queued: it takes out its own object only, and puts that one
back. -/
theorem mem_timedQ_setTtl_of_mem (ho : s.Owned) (h : r ∈ s.timedQ) (ttl : ℤ) :
    r ∈ (s.setTtl k ttl).timedQ := by
  cases hkv : s.cache k with
  | none => rwa [setTtl_of_none hkv]
  | some holder =>
    by_cases hr : r = holder.key
    · rw [hr]
      exact mem_timedQ_setTtl ho hkv ttl
    · have hcompare : s.compare holder.key r ≠ .eq := by
        rw [Ne, ho.compare_eq_iff (ho.cached k holder hkv).1 (ho.queued r h)]
        exact Ne.symm hr
      rw [setTtl]
      rw [hkv]
      refine mem_timedQ_add_of_mem ?_ holder.key
      refine List.mem_filter.mpr ⟨h, ?_⟩
      rwa [Bool.not_eq_true', Bool.eq_false_iff, ne_eq, Ordering.isEq_iff_eq_eq]

/-- `put` of an absent key makes a new object. -/
theorem put_of_none (hk : s.cache k = none) (ttl : ℤ) (notified : List R) :
    s.put k value ttl notified = timedQ_add { s with
      allocated := s.allocated + 1
      timedKeys := Function.update s.timedKeys s.allocated
        { key := k, expires := s.now + ttl, runners := notified }
      cache := Function.update s.cache k (some { key := s.allocated, value := value })
      lastSet := Function.update s.lastSet k (some (s.now + ttl)) } s.allocated := by
  rw [put, put_tkey]
  rw [hk]
  rfl

theorem mem_timedQ_put_of_mem (hk : s.cache k = none) (h : r ∈ s.timedQ) (ttl : ℤ)
    (notified : List R) : r ∈ (s.put k value ttl notified).timedQ := by
  rw [put_of_none hk]
  refine mem_timedQ_add_of_mem ?_ s.allocated
  exact h

/-- The object of a new entry is queued. -/
theorem mem_timedQ_put (ho : s.Owned) (hk : s.cache k = none) (ttl : ℤ) (notified : List R) :
    s.allocated ∈ (s.put k value ttl notified).timedQ := by
  rw [put_of_none hk]
  -- an object that compares as equal would have the key, which has no entry
  refine mem_timedQ_add_self fun r hr heq => ?_
  have hlt : r < s.allocated := ho.queued r hr
  have hkey := TimedKey.key_eq_of_compare heq
  simp only [Function.update_self, Function.update_of_ne hlt.ne] at hkey
  obtain ⟨v, hv⟩ := ho.owned r hlt
  rw [← hkey, hk] at hv
  cases hv

/-- A callback waits as long as its task has not started it. -/
theorem Waits.setPhase (hw : s.Waits r callback) {i : ℕ} {task : ExpiryTask R}
    {phase : TaskPhase R} (hi : s.tasks[i]? = some task)
    (hphase : task.head = some r → task.phase = .submitted ∨ next task.phase = some callback →
      phase = .submitted ∨ next phase = some callback) :
    (s.setPhase i task phase).Waits r callback := by
  rcases hw with hr | hw
  · exact .inl hr
  · refine .inr ?_
    rw [exists_mem_iff_others hi] at hw
    exact (exists_mem_set_iff_others hi).mpr (hw.imp_left fun ⟨hhead, hold⟩ =>
      ⟨hhead, hphase hhead hold⟩)

/-- **Callbacks are not lost.** A waiting callback goes on waiting until a task starts it. -/
theorem Waits.step (hw : s.Waits r callback) (h : s.Entry key value callback r) (ho : s.Owned)
    {a : Action V R} (ha : ∀ k, a ≠ .remove k)
    (hput : ∀ k value ttl notified, a = .put k value ttl notified → s.cache k = none)
    (hst : (machine V R).step s a = some t) :
    t.Waits r callback ∨
      ∃ i task, a = .start i ∧ s.tasks[i]? = some task ∧ next task.phase = some callback := by
  obtain ⟨ms, -, rfl⟩ | ⟨k, value', ttl, notified, rfl, rfl⟩ | ⟨k, ttl, -, rfl⟩ | ⟨k, rfl, -⟩ |
    ⟨watcher, rfl⟩ | ⟨time, -, rfl⟩ | ⟨i, task, phase, hi, rfl, hmove⟩ := step_cases hst
  · exact .inl hw
  · have hk := hput k value' ttl notified rfl
    refine .inl (hw.imp (fun hr => mem_timedQ_put_of_mem hk hr ttl notified) fun htask => ?_)
    rwa [put_tasks]
  · refine .inl (hw.imp (fun hr => mem_timedQ_setTtl_of_mem ho hr ttl) fun htask => ?_)
    rwa [setTtl_tasks]
  · exact absurd rfl (ha k)
  · exact .inl hw
  · left
    rcases hw with hr | ⟨task, htask, hrest⟩
    · cases hq : s.timedQ with
      | nil => rw [hq] at hr; cases hr
      | cons x q =>
        rw [hq] at hr
        rcases List.mem_cons.mp hr with rfl | hr
        · -- the object itself is popped
          refine .inr ⟨{ head := some r, time := time }, ?_, rfl, .inl rfl⟩
          simp [pollFirst, hq]
        · exact .inl (by simpa [pollFirst, hq] using hr)
    · exact .inr ⟨task, List.mem_append_left _ htask, hrest⟩
  · obtain ⟨hphase, rfl⟩ | ⟨x, todo, rfl, hphase, rfl⟩ | ⟨x, todo, hphase, -⟩ | ⟨hphase, -⟩ := hmove
    · -- the copy of the callbacks
      refine .inl (hw.setPhase hi fun hhead _ => .inr ?_)
      rw [hhead, copied, h.2]
      rfl
    · -- a task starts a callback, ours or another one
      by_cases hx : next task.phase = some callback
      · exact .inr ⟨i, task, rfl, hi, hx⟩
      · refine .inl (hw.setPhase hi fun _ hold => absurd hold ?_)
        have hnew : task.phase ≠ .submitted := by
          rw [hphase]
          simp
        exact not_or.mpr ⟨hnew, hx⟩
    · refine .inl (hw.setPhase hi fun _ hold => absurd hold ?_)
      rw [hphase]
      simp [next]
    · refine .inl (hw.setPhase hi fun _ hold => absurd hold ?_)
      rw [hphase]
      simp [next]

end TimeoutCache

end Gwems
