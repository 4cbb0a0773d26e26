import Gwems.Library.Machine
import Gwems.Library.Utf16

/-!
# `TimeoutCache`: a cache with deadlines and callbacks

`org.gwems.util.TimeoutCache` keeps an entry in two structures: a Guava `cache` from strings to
`ObjectHolder`s, and `timedQ`, a `TreeSet` of the mutable `TimedKey` objects that the holders
point to, ordered by deadline. A watcher thread tests without synchronization whether the first
element is due, pops the first element in a synchronized block, and hands it to a pool; the
pool task copies the callbacks of the popped object in a synchronized block, runs them, and
finally, in another one, drops the entry if its deadline has still passed.

`TimedKey` objects are mutated while they are shared, so the model has references: a
reference is a number and `timedKeys` is the heap. Each synchronized body is one function on
the state, and `machine` interleaves them with the steps of the watcher and of the tasks.
Time is an integer number of milliseconds and does not go back; `null` is `none`.

The base invariant is `Owned`: the cache and the heap point to each other. It holds in every
run because nothing is ever dropped from the cache: the task passes the `TimedKey` itself to
`cache.invalidate`, and a `TimedKey` equals no string (`invalidate_timedKey`).
-/

namespace Gwems

/-- A `TimedKey` object. -/
structure TimedKey (R : Type*) where
  key : String := ""
  expires : ℤ := 0
  runners : List R := []
deriving DecidableEq

/-- The comparator of `timedQ`: by deadline, then by key. -/
def TimedKey.compare {R : Type*} (o1 o2 : TimedKey R) : Ordering :=
  (Ord.compare o1.expires o2.expires).then (Utf16.compareTo o1.key o2.key)

theorem TimedKey.compare_self {R : Type*} (o : TimedKey R) : o.compare o = .eq := by
  simp [TimedKey.compare, Utf16.compareTo_eq_iff]

theorem TimedKey.key_eq_of_compare {R : Type*} {o o' : TimedKey R} (h : o.compare o' = .eq) :
    o.key = o'.key := by
  rw [TimedKey.compare, Ordering.then_eq_eq] at h
  exact Utf16.compareTo_eq_iff.mp h.2

/-- An `ObjectHolder` object, with a reference to its `TimedKey`. -/
structure ObjectHolder (V : Type*) where
  key : ℕ
  value : Option V
deriving DecidableEq

/-- The watcher thread: asleep, about to test the first element against the time it has read, or
about to pop it. -/
inductive Watcher
  | sleeping
  | testing (time : ℤ)
  | polling (time : ℤ)
deriving DecidableEq

/-- A pool task: handed to the pool, inside the loop over the copied callbacks (with the one that
is running, if any, and those still to start), finished, or ended by an exception. -/
inductive TaskPhase (R : Type*)
  | submitted
  | running (current : Option R) (todo : List R)
  | done
  | dead
deriving DecidableEq

/-- A pool task for the popped reference (`none` for a null) and the time the watcher had read. -/
structure ExpiryTask (R : Type*) where
  head : Option ℕ
  time : ℤ
  phase : TaskPhase R := .submitted
deriving DecidableEq

/-- The objects `cache` is asked about: strings, and the `TimedKey` an expiry task passes. -/
inductive CacheKey
  | string (s : String)
  | timedKey (r : ℕ)

/-- The state of a `TimeoutCache` with values in `V` and callbacks in `R`. -/
structure TimeoutCache (V R : Type*) where
  now : ℤ := 0
  /-- The heap of `TimedKey` objects and the number of references given out. -/
  timedKeys : ℕ → TimedKey R := fun _ => {}
  allocated : ℕ := 0
  cache : String → Option (ObjectHolder V) := fun _ => none
  timedQ : List ℕ := []
  watcher : Watcher := .sleeping
  tasks : List (ExpiryTask R) := []
  /-- The deadline that the last `put` or `setTtl` for a key has set. The code has no such field;
  it is read by statements only. -/
  lastSet : String → Option ℤ := fun _ => none

namespace TimeoutCache

variable {V R : Type*}

/-! ### The ordered set of references -/

/-- The comparator, on references. -/
def compare (s : TimeoutCache V R) (r r' : ℕ) : Ordering :=
  (s.timedKeys r).compare (s.timedKeys r')

/-- `timedQ.add(r)`: an element that compares as equal is kept instead. -/
def timedQ_add (s : TimeoutCache V R) (r : ℕ) : TimeoutCache V R :=
  { s with timedQ :=
      if s.timedQ.any fun r' => (s.compare r r').isEq then s.timedQ
      else s.timedQ.orderedInsert (fun a b => (s.compare a b).isLE) r }

/-- `timedQ.remove(r)`: removes the element that compares as equal. -/
def timedQ_remove (s : TimeoutCache V R) (r : ℕ) : TimeoutCache V R :=
  { s with timedQ := s.timedQ.filter fun r' => !(s.compare r r').isEq }

/-- Overwrite a `TimedKey` object. -/
def write (s : TimeoutCache V R) (r : ℕ) (tkey : TimedKey R) : TimeoutCache V R :=
  { s with timedKeys := Function.update s.timedKeys r tkey }

/-! ### The synchronized bodies -/

/-- The `TimedKey` that `put` uses: the one of the present entry, taken out of `timedQ`, or a new
one. -/
def put_tkey (s : TimeoutCache V R) (key : String) : ℕ × TimeoutCache V R :=
  match s.cache key with
  -- the object is shared: a task that has popped it will see what `put` writes to it
  | some holder => (holder.key, s.timedQ_remove holder.key)
  | none => (s.allocated, { s with allocated := s.allocated + 1 })

/-- `put(key, value, ttl, notified...)`. -/
def put (s : TimeoutCache V R) (key : String) (value : Option V) (ttl : ℤ) (notified : List R) :
    TimeoutCache V R :=
  let (tkey, s') := s.put_tkey key
  let s' := s'.write tkey { key := key, expires := s.now + ttl, runners := notified }
  let s' := { s' with
    cache := Function.update s'.cache key (some { key := tkey, value := value })
    lastSet := Function.update s'.lastSet key (some (s.now + ttl)) }
  s'.timedQ_add tkey

/-- `get(key)`. -/
def get (s : TimeoutCache V R) (key : String) : Option V :=
  match s.cache key with
  | some holder => holder.value
  | none => none

/-- `setTtl(key, ttl)`. -/
def setTtl (s : TimeoutCache V R) (key : String) (ttl : ℤ) : TimeoutCache V R :=
  match s.cache key with
  | some holder =>
    -- the comparator reads the deadline, so the object is out of `timedQ` while it changes
    let s' := s.timedQ_remove holder.key
    let s' := s'.write holder.key { s'.timedKeys holder.key with expires := s.now + ttl }
    let s' := { s' with lastSet := Function.update s'.lastSet key (some (s.now + ttl)) }
    s'.timedQ_add holder.key
  | none => s

/-- `remove(key)`: "We just set the timeout to -1 and let it expire without the watchers". -/
def remove (s : TimeoutCache V R) (key : String) : TimeoutCache V R :=
  match s.cache key with
  | some holder =>
    let s' := s.timedQ_remove holder.key
    let s' := s'.write holder.key
      { s'.timedKeys holder.key with runners := [], expires := s.now - 1 }
    s'.timedQ_add holder.key
  | none => s

/-- `equals`: `TimedKey.equals` looks at the class first, and so does `String.equals`. -/
def equals (s : TimeoutCache V R) : CacheKey → CacheKey → Bool
  | .string k, .string k' => k == k'
  | .timedKey r, .timedKey r' => r == r' || (s.timedKeys r).key == (s.timedKeys r').key
  | .string _, .timedKey _ | .timedKey _, .string _ => false

/-- `cache.invalidate(k)`: drops the entry whose key equals `k`. -/
def invalidate (s : TimeoutCache V R) (k : CacheKey) : TimeoutCache V R :=
  { s with cache := fun key => if s.equals k (.string key) then none else s.cache key }

/-- A `TimedKey` equals no key of the cache. -/
@[simp] theorem invalidate_timedKey (s : TimeoutCache V R) (r : ℕ) :
    s.invalidate (.timedKey r) = s := rfl

/-! ### The machine -/

/-- What can happen next: time passes, a caller's synchronized body runs, the watcher wakes up,
tests the first element or pops it, or a pool task copies its callbacks, starts one, ends
one (normally or with an exception) or runs its last block. -/
inductive Action (V R : Type*)
  | tick (ms : ℕ)
  | put (key : String) (value : Option V) (ttl : ℤ) (notified : List R)
  | setTtl (key : String) (ttl : ℤ)
  | remove (key : String)
  | wake
  | test
  | poll
  | copy (i : ℕ)
  | start (i : ℕ)
  | finish (i : ℕ) (returns : Bool)
  | close (i : ℕ)

/-- `timedQ.size() != 0 && timedQ.first().expires <= time`. -/
def firstIsDue (s : TimeoutCache V R) (time : ℤ) : Bool :=
  match s.timedQ with
  | r :: _ => (s.timedKeys r).expires ≤ time
  | [] => false

/-- Pop the first element and hand a task for it to the pool. -/
def pollFirst (s : TimeoutCache V R) (time : ℤ) : TimeoutCache V R :=
  { s with
    timedQ := s.timedQ.tail
    watcher := .testing time
    tasks := s.tasks ++ [{ head := s.timedQ.head?, time := time }] }

/-- Change the phase of a task. -/
def setPhase (s : TimeoutCache V R) (i : ℕ) (task : ExpiryTask R) (phase : TaskPhase R) :
    TimeoutCache V R :=
  { s with tasks := s.tasks.set i { task with phase := phase } }

/-- The last synchronized block of a task: "only invalidate it if it's still timed out". -/
def expire (s : TimeoutCache V R) (task : ExpiryTask R) : TimeoutCache V R :=
  match task.head with
  | some head => if (s.timedKeys head).expires ≤ task.time then s.invalidate (.timedKey head) else s
  | none => s

@[simp] theorem expire_eq (s : TimeoutCache V R) (task : ExpiryTask R) : s.expire task = s := by
  rw [expire]
  split
  · split <;> rfl
  · rfl

/-- The phase a task goes to when it copies the callbacks; a null head ends it with an
exception. -/
def copied (s : TimeoutCache V R) : Option ℕ → TaskPhase R
  | some head => .running none (s.timedKeys head).runners
  | none => .dead

/-- Callers, watcher and pool tasks in any order. -/
def machine (V R : Type*) : Machine (TimeoutCache V R) (Action V R) where
  step s
    | .tick ms => some { s with now := s.now + ms }
    | .put key value ttl notified => some (s.put key value ttl notified)
    | .setTtl key ttl => some (s.setTtl key ttl)
    | .remove key => some (s.remove key)
    | .wake =>
      -- the time is read once for all the elements popped in this round
      match s.watcher with
      | .sleeping => some { s with watcher := .testing s.now }
      | _ => none
    | .test =>
      match s.watcher with
      | .testing time =>
        some { s with watcher := if s.firstIsDue time then .polling time else .sleeping }
      | _ => none
    | .poll =>
      -- whatever is first by now, due or not
      match s.watcher with
      | .polling time => some (s.pollFirst time)
      | _ => none
    | .copy i =>
      match s.tasks[i]? with
      | some ⟨head, time, .submitted⟩ =>
        some (s.setPhase i ⟨head, time, .submitted⟩ (s.copied head))
      | _ => none
    | .start i =>
      match s.tasks[i]? with
      | some ⟨head, time, .running none (r :: todo)⟩ =>
        some (s.setPhase i ⟨head, time, .running none (r :: todo)⟩ (.running (some r) todo))
      | _ => none
    | .finish i returns =>
      match s.tasks[i]? with
      | some ⟨head, time, .running (some r) todo⟩ =>
        some (s.setPhase i ⟨head, time, .running (some r) todo⟩
          (if returns then .running none todo else .dead))
      | _ => none
    | .close i =>
      -- only a task whose callbacks have all returned gets here
      match s.tasks[i]? with
      | some ⟨head, time, .running none []⟩ =>
        some ((s.expire ⟨head, time, .running none []⟩).setPhase i ⟨head, time, .running none []⟩
          .done)
      | _ => none

/-- The callback a task will start next. -/
def next : TaskPhase R → Option R
  | .running none (r :: _) => some r
  | _ => none

/-- A pool task for an object with the key satisfies `P`. -/
def ExistsTask (s : TimeoutCache V R) (key : String) (P : TaskPhase R → Prop) : Prop :=
  ∃ task ∈ s.tasks, P task.phase ∧ task.head.any fun head => (s.timedKeys head).key = key

instance (s : TimeoutCache V R) (key : String) (P : TaskPhase R → Prop) [DecidablePred P] :
    Decidable (s.ExistsTask key P) :=
  inferInstanceAs (Decidable (∃ task ∈ s.tasks,
    P task.phase ∧ task.head.any fun head => (s.timedKeys head).key = key))

/-- A pool task is about to start this callback of the key. -/
def AboutToStart (s : TimeoutCache V R) (key : String) (callback : R) : Prop :=
  s.ExistsTask key fun phase => next phase = some callback

instance [DecidableEq R] (s : TimeoutCache V R) (key : String) (callback : R) :
    Decidable (s.AboutToStart key callback) :=
  inferInstanceAs (Decidable (s.ExistsTask key fun phase => next phase = some callback))

variable {s t : TimeoutCache V R}

/-- What one step can do. A task moves from its copy to the start of a callback, to its end and
at last to the closing block, which changes nothing but the phase. -/
theorem step_cases {a : Action V R} (h : (machine V R).step s a = some t) :
    (∃ ms : ℕ, a = .tick ms ∧ t = { s with now := s.now + ms }) ∨
      (∃ key value ttl notified, a = .put key value ttl notified ∧
        t = s.put key value ttl notified) ∨
      (∃ key ttl, a = .setTtl key ttl ∧ t = s.setTtl key ttl) ∨
      (∃ key, a = .remove key ∧ t = s.remove key) ∨
      (∃ watcher, t = { s with watcher := watcher }) ∨
      (∃ time, a = .poll ∧ t = s.pollFirst time) ∨
      ∃ i task phase, s.tasks[i]? = some task ∧ t = s.setPhase i task phase ∧
        ((task.phase = .submitted ∧ phase = s.copied task.head) ∨
          (∃ r todo, a = .start i ∧ task.phase = .running none (r :: todo) ∧
            phase = .running (some r) todo) ∨
          (∃ r todo, task.phase = .running (some r) todo ∧
            (phase = .running none todo ∨ phase = .dead)) ∨
          (task.phase = .running none [] ∧ phase = .done)) := by
  cases a with
  | tick ms => exact .inl ⟨ms, rfl, (Option.some.inj h).symm⟩
  | put key value ttl notified =>
    exact .inr (.inl ⟨key, value, ttl, notified, rfl, (Option.some.inj h).symm⟩)
  | setTtl key ttl => exact .inr (.inr (.inl ⟨key, ttl, rfl, (Option.some.inj h).symm⟩))
  | remove key => exact .inr (.inr (.inr (.inl ⟨key, rfl, (Option.some.inj h).symm⟩)))
  | wake =>
    simp only [machine] at h
    split at h
    next => exact .inr (.inr (.inr (.inr (.inl ⟨_, (Option.some.inj h).symm⟩))))
    next => cases h
  | test =>
    simp only [machine] at h
    split at h
    next => exact .inr (.inr (.inr (.inr (.inl ⟨_, (Option.some.inj h).symm⟩))))
    next => cases h
  | poll =>
    simp only [machine] at h
    split at h
    next time _ => exact .inr (.inr (.inr (.inr (.inr (.inl ⟨time, rfl, (Option.some.inj h).symm⟩)))))
    next => cases h
  | copy i =>
    simp only [machine] at h
    split at h
    next hi =>
      exact .inr (.inr (.inr (.inr (.inr (.inr ⟨i, _, _, hi, (Option.some.inj h).symm,
        .inl ⟨rfl, rfl⟩⟩)))))
    next => cases h
  | start i =>
    simp only [machine] at h
    split at h
    next r todo hi =>
      exact .inr (.inr (.inr (.inr (.inr (.inr ⟨i, _, _, hi, (Option.some.inj h).symm,
        .inr (.inl ⟨r, todo, rfl, rfl, rfl⟩)⟩)))))
    next => cases h
  | finish i returns =>
    simp only [machine] at h
    split at h
    next r todo hi =>
      refine .inr (.inr (.inr (.inr (.inr (.inr ⟨i, _, _, hi, (Option.some.inj h).symm,
        .inr (.inr (.inl ⟨r, todo, rfl, ?_⟩))⟩)))))
      cases returns
      · exact .inr rfl
      · exact .inl rfl
    next => cases h
  | close i =>
    simp only [machine, expire_eq] at h
    split at h
    next hi =>
      exact .inr (.inr (.inr (.inr (.inr (.inr ⟨i, _, _, hi, (Option.some.inj h).symm,
        .inr (.inr (.inr ⟨rfl, rfl⟩))⟩)))))
    next => cases h

/-! ### What the synchronized bodies change -/

section Bodies

variable {key : String} {value : Option V} {ttl : ℤ} {notified : List R} {r r' : ℕ}
  {holder : ObjectHolder V}

theorem mem_timedQ_of_mem_add (h : r' ∈ (s.timedQ_add r).timedQ) : r' ∈ s.timedQ ∨ r' = r := by
  simp only [timedQ_add] at h
  split at h
  · exact .inl h
  · exact ((List.mem_orderedInsert _).mp h).symm

theorem mem_timedQ_of_mem_remove (h : r' ∈ (s.timedQ_remove r).timedQ) : r' ∈ s.timedQ :=
  List.mem_of_mem_filter h

theorem notMem_timedQ_remove (s : TimeoutCache V R) (r : ℕ) : r ∉ (s.timedQ_remove r).timedQ := by
  intro hr
  have hne := (List.mem_filter.mp hr).2
  simp [compare, TimedKey.compare_self] at hne

theorem mem_timedQ_add_self (h : ∀ r' ∈ s.timedQ, s.compare r r' ≠ .eq) :
    r ∈ (s.timedQ_add r).timedQ := by
  simp only [timedQ_add]
  split
  next hany =>
    obtain ⟨r', hr', heq⟩ := List.any_eq_true.mp hany
    exact absurd (Ordering.isEq_iff_eq_eq.mp heq) (h r' hr')
  next => exact (List.mem_orderedInsert _).mpr (.inl rfl)

/-- The reference `put` writes to. -/
def put_ref (s : TimeoutCache V R) (key : String) : ℕ := (s.put_tkey key).1

theorem put_ref_of_some (h : s.cache key = some holder) : s.put_ref key = holder.key := by
  simp [put_ref, put_tkey, h]

theorem put_ref_of_none (h : s.cache key = none) : s.put_ref key = s.allocated := by
  simp [put_ref, put_tkey, h]

@[simp] theorem put_now : (s.put key value ttl notified).now = s.now := by
  rw [put, put_tkey]
  cases s.cache key <;> rfl

@[simp] theorem put_watcher : (s.put key value ttl notified).watcher = s.watcher := by
  rw [put, put_tkey]
  cases s.cache key <;> rfl

@[simp] theorem put_tasks : (s.put key value ttl notified).tasks = s.tasks := by
  rw [put, put_tkey]
  cases s.cache key <;> rfl

theorem put_timedKeys : (s.put key value ttl notified).timedKeys =
    Function.update s.timedKeys (s.put_ref key)
      { key := key, expires := s.now + ttl, runners := notified } := by
  rw [put, put_ref, put_tkey]
  cases s.cache key <;> rfl

theorem put_cache : (s.put key value ttl notified).cache =
    Function.update s.cache key (some { key := s.put_ref key, value := value }) := by
  rw [put, put_ref, put_tkey]
  cases s.cache key <;> rfl

theorem put_lastSet : (s.put key value ttl notified).lastSet =
    Function.update s.lastSet key (some (s.now + ttl)) := by
  rw [put, put_tkey]
  cases s.cache key <;> rfl

theorem put_allocated : (s.put key value ttl notified).allocated =
    if (s.cache key).isSome then s.allocated else s.allocated + 1 := by
  rw [put, put_tkey]
  cases s.cache key <;> rfl

theorem mem_timedQ_of_mem_put (h : r ∈ (s.put key value ttl notified).timedQ) :
    r ∈ s.timedQ ∨ r = s.put_ref key := by
  -- before the object is added, nothing has been added
  have hq : ∀ r ∈ (s.put_tkey key).2.timedQ, r ∈ s.timedQ := by
    rw [put_tkey]
    cases s.cache key with
    | some holder => exact fun _ => mem_timedQ_of_mem_remove
    | none => exact fun _ hr => hr
  exact (mem_timedQ_of_mem_add h).imp_left (hq r)

/-- `setTtl` of a present key, as a record update. -/
theorem setTtl_of_some (h : s.cache key = some holder) : s.setTtl key ttl = { s with
    timedKeys := Function.update s.timedKeys holder.key
      { s.timedKeys holder.key with expires := s.now + ttl }
    lastSet := Function.update s.lastSet key (some (s.now + ttl))
    timedQ := (s.setTtl key ttl).timedQ } := by
  rw [setTtl]
  rw [h]
  rfl

theorem setTtl_of_none (h : s.cache key = none) : s.setTtl key ttl = s := by
  rw [setTtl]
  rw [h]

theorem mem_timedQ_of_mem_setTtl (h : s.cache key = some holder)
    (hr : r ∈ (s.setTtl key ttl).timedQ) : r ∈ s.timedQ ∨ r = holder.key := by
  rw [setTtl] at hr
  rw [h] at hr
  exact (mem_timedQ_of_mem_add hr).imp_left mem_timedQ_of_mem_remove

/-- `remove` of a present key, as a record update. -/
theorem remove_of_some (h : s.cache key = some holder) : s.remove key = { s with
    timedKeys := Function.update s.timedKeys holder.key
      { s.timedKeys holder.key with runners := [], expires := s.now - 1 }
    timedQ := (s.remove key).timedQ } := by
  rw [remove]
  rw [h]
  rfl

theorem remove_of_none (h : s.cache key = none) : s.remove key = s := by
  rw [remove]
  rw [h]

theorem mem_timedQ_of_mem_removeKey (h : s.cache key = some holder)
    (hr : r ∈ (s.remove key).timedQ) : r ∈ s.timedQ ∨ r = holder.key := by
  rw [remove] at hr
  rw [h] at hr
  exact (mem_timedQ_of_mem_add hr).imp_left mem_timedQ_of_mem_remove

/-- `setTtl` and `remove` write to the object of the key and to the queue. -/
theorem setTtl_unchanged (s : TimeoutCache V R) (key : String) (ttl : ℤ) :
    (s.setTtl key ttl).cache = s.cache ∧ (s.setTtl key ttl).allocated = s.allocated ∧
      (s.setTtl key ttl).now = s.now ∧ (s.setTtl key ttl).watcher = s.watcher ∧
      (s.setTtl key ttl).tasks = s.tasks := by
  cases hk : s.cache key with
  | some holder => rw [setTtl_of_some hk]; exact ⟨rfl, rfl, rfl, rfl, rfl⟩
  | none => rw [setTtl_of_none hk]; exact ⟨rfl, rfl, rfl, rfl, rfl⟩

theorem remove_unchanged (s : TimeoutCache V R) (key : String) :
    (s.remove key).cache = s.cache ∧ (s.remove key).allocated = s.allocated ∧
      (s.remove key).now = s.now ∧ (s.remove key).watcher = s.watcher ∧
      (s.remove key).tasks = s.tasks := by
  cases hk : s.cache key with
  | some holder => rw [remove_of_some hk]; exact ⟨rfl, rfl, rfl, rfl, rfl⟩
  | none => rw [remove_of_none hk]; exact ⟨rfl, rfl, rfl, rfl, rfl⟩

@[simp] theorem setTtl_cache (ttl : ℤ) : (s.setTtl key ttl).cache = s.cache :=
  (setTtl_unchanged s key ttl).1

@[simp] theorem setTtl_now (ttl : ℤ) : (s.setTtl key ttl).now = s.now :=
  (setTtl_unchanged s key ttl).2.2.1

@[simp] theorem setTtl_watcher (ttl : ℤ) : (s.setTtl key ttl).watcher = s.watcher :=
  (setTtl_unchanged s key ttl).2.2.2.1

@[simp] theorem setTtl_tasks (ttl : ℤ) : (s.setTtl key ttl).tasks = s.tasks :=
  (setTtl_unchanged s key ttl).2.2.2.2

@[simp] theorem remove_cache : (s.remove key).cache = s.cache :=
  (remove_unchanged s key).1

@[simp] theorem remove_allocated (s : TimeoutCache V R) (key : String) :
    (s.remove key).allocated = s.allocated :=
  (remove_unchanged s key).2.1

@[simp] theorem remove_now : (s.remove key).now = s.now :=
  (remove_unchanged s key).2.2.1

@[simp] theorem remove_watcher : (s.remove key).watcher = s.watcher :=
  (remove_unchanged s key).2.2.2.1

@[simp] theorem remove_tasks (s : TimeoutCache V R) (key : String) :
    (s.remove key).tasks = s.tasks :=
  (remove_unchanged s key).2.2.2.2

end Bodies

/-! ### Entries stay -/

/-- The cache and the heap point to each other: each reference given out is the one its key's
entry holds, and each entry holds a reference with its key. -/
structure Owned (s : TimeoutCache V R) : Prop where
  owned : ∀ r < s.allocated, ∃ value, s.cache (s.timedKeys r).key = some { key := r, value := value }
  cached : ∀ key holder, s.cache key = some holder →
    holder.key < s.allocated ∧ (s.timedKeys holder.key).key = key
  queued : ∀ r ∈ s.timedQ, r < s.allocated
  heads : ∀ task ∈ s.tasks, ∀ r ∈ task.head, r < s.allocated

theorem owned_init : Owned ({} : TimeoutCache V R) where
  owned := by simp
  cached := nofun
  queued := nofun
  heads := nofun

/-- Two references with one key are the same. -/
theorem Owned.ref_inj (h : s.Owned) {r r' : ℕ} (hr : r < s.allocated) (hr' : r' < s.allocated)
    (hkey : (s.timedKeys r).key = (s.timedKeys r').key) : r = r' := by
  obtain ⟨v, hv⟩ := h.owned r hr
  obtain ⟨v', hv'⟩ := h.owned r' hr'
  rw [hkey, hv'] at hv
  exact (congrArg ObjectHolder.key (Option.some.inj hv)).symm

/-- An object compares as equal with itself only. -/
theorem Owned.compare_eq_iff (h : s.Owned) {r r' : ℕ} (hr : r < s.allocated)
    (hr' : r' < s.allocated) : s.compare r r' = .eq ↔ r = r' := by
  constructor
  · intro heq
    exact h.ref_inj hr hr' (TimedKey.key_eq_of_compare heq)
  · rintro rfl
    exact TimedKey.compare_self _

/-- The entries of two keys hold two objects. -/
theorem Owned.holder_ne (h : s.Owned) {key k : String} {holder holder' : ObjectHolder V}
    (hk : s.cache key = some holder) (hk' : s.cache k = some holder') (hne : key ≠ k) :
    holder.key ≠ holder'.key := by
  intro heq
  have hkey := (h.cached key holder hk).2
  rw [heq, (h.cached k holder' hk').2] at hkey
  exact hne hkey.symm

/-- Rewriting the object that a present entry holds, under the same key. -/
theorem Owned.write (h : s.Owned) {key : String} {holder : ObjectHolder V} {tkey : TimedKey R}
    {timedQ : List ℕ} {lastSet : String → Option ℤ} (hk : s.cache key = some holder)
    (htkey : tkey.key = key) (hq : ∀ r ∈ timedQ, r ∈ s.timedQ ∨ r = holder.key) :
    Owned { s with
      timedKeys := Function.update s.timedKeys holder.key tkey
      timedQ := timedQ
      lastSet := lastSet } := by
  obtain ⟨hlt, hholder⟩ := h.cached key holder hk
  -- no object changes its key
  have hkeys : ∀ r, (Function.update s.timedKeys holder.key tkey r).key = (s.timedKeys r).key := by
    intro r
    by_cases hr : r = holder.key
    · rw [hr, Function.update_self, htkey, hholder]
    · rw [Function.update_of_ne hr]
  refine ⟨fun r hr => ?_, fun k v hv => ?_, fun r hr => ?_, h.heads⟩
  · rw [hkeys]
    exact h.owned r hr
  · rw [hkeys]
    exact h.cached k v hv
  · exact (hq r hr).elim (h.queued r) fun hr => hr ▸ hlt

theorem Owned.put_ref_lt (h : s.Owned) (key : String) (value : Option V) (ttl : ℤ)
    (notified : List R) : s.put_ref key < (s.put key value ttl notified).allocated := by
  rw [put_allocated]
  cases hk : s.cache key with
  | some holder => rw [put_ref_of_some hk]; exact (h.cached key holder hk).1
  | none => rw [put_ref_of_none hk]; exact Nat.lt_succ_self _

theorem Owned.lt_put_allocated (key : String) (value : Option V) (ttl : ℤ)
    (notified : List R) {r : ℕ} (hr : r < s.allocated) :
    r < (s.put key value ttl notified).allocated := by
  rw [put_allocated]
  split <;> omega

/-- A reference with the key of `put` is the one `put` writes to. -/
theorem Owned.eq_put_ref (h : s.Owned) {key : String} {r : ℕ} (hr : r < s.allocated)
    (hkey : (s.timedKeys r).key = key) : r = s.put_ref key := by
  obtain ⟨v, hv⟩ := h.owned r hr
  rw [hkey] at hv
  rw [put_ref_of_some hv]

/-- Another key's `put` writes to another object. -/
theorem Owned.put_ref_ne (h : s.Owned) {key k : String} {holder : ObjectHolder V}
    (hk : s.cache key = some holder) (hne : key ≠ k) : holder.key ≠ s.put_ref k := by
  intro heq
  cases hkv : s.cache k with
  | some holder' =>
    rw [put_ref_of_some hkv] at heq
    exact h.holder_ne hk hkv hne heq
  | none =>
    have hlt := (h.cached key holder hk).1
    rw [put_ref_of_none hkv] at heq
    omega

theorem Owned.put (h : s.Owned) (key : String) (value : Option V) (ttl : ℤ) (notified : List R) :
    (s.put key value ttl notified).Owned := by
  have hself : ∀ tkey : TimedKey R,
      Function.update s.timedKeys (s.put_ref key) tkey (s.put_ref key) = tkey :=
    fun tkey => Function.update_self ..
  refine ⟨fun r hr => ?_, fun k holder hk => ?_, fun r hr => ?_, fun task htask r hr => ?_⟩
  · rw [put_timedKeys, put_cache]
    by_cases hrr : r = s.put_ref key
    · subst hrr
      exact ⟨value, by rw [hself, Function.update_self]⟩
    · -- another reference has another key
      rw [Function.update_of_ne hrr]
      have hlt : r < s.allocated := by
        rw [put_allocated] at hr
        cases hk : s.cache key with
        | some holder => simpa [hk] using hr
        | none => rw [put_ref_of_none hk] at hrr; simp only [hk] at hr; simp at hr; omega
      have hne : (s.timedKeys r).key ≠ key := fun hkey => hrr (h.eq_put_ref hlt hkey)
      rw [Function.update_of_ne hne]
      exact h.owned r hlt
  · rw [put_cache] at hk
    rw [put_timedKeys]
    by_cases hkk : k = key
    · subst hkk
      rw [Function.update_self, Option.some.injEq] at hk
      subst hk
      exact ⟨h.put_ref_lt .., by rw [hself]⟩
    · rw [Function.update_of_ne hkk] at hk
      obtain ⟨hlt, hkey⟩ := h.cached k holder hk
      rw [Function.update_of_ne (h.put_ref_ne hk hkk)]
      exact ⟨Owned.lt_put_allocated key value ttl notified hlt, hkey⟩
  · rcases mem_timedQ_of_mem_put hr with hr | rfl
    · exact Owned.lt_put_allocated key value ttl notified (h.queued r hr)
    · exact h.put_ref_lt ..
  · rw [put_tasks] at htask
    exact Owned.lt_put_allocated key value ttl notified (h.heads task htask r hr)

theorem Owned.setTtl (h : s.Owned) (key : String) (ttl : ℤ) : (s.setTtl key ttl).Owned := by
  cases hk : s.cache key with
  | some holder =>
    rw [setTtl_of_some hk]
    exact h.write hk (h.cached key holder hk).2 fun r => mem_timedQ_of_mem_setTtl hk
  | none => rwa [setTtl_of_none hk]

theorem Owned.remove (h : s.Owned) (key : String) : (s.remove key).Owned := by
  cases hk : s.cache key with
  | some holder =>
    rw [remove_of_some hk]
    exact h.write hk (h.cached key holder hk).2 fun r => mem_timedQ_of_mem_removeKey hk
  | none => rwa [remove_of_none hk]

theorem Owned.pollFirst (h : s.Owned) (time : ℤ) : (s.pollFirst time).Owned := by
  refine ⟨h.owned, h.cached, fun r hr => h.queued r (List.mem_of_mem_tail hr), ?_⟩
  intro task htask r hr
  rcases List.mem_append.mp htask with htask | htask
  · exact h.heads task htask r hr
  · rw [List.mem_singleton.mp htask] at hr
    exact h.queued r (List.mem_of_mem_head? hr)

theorem Owned.setPhase (h : s.Owned) {i : ℕ} {task : ExpiryTask R} (hi : s.tasks[i]? = some task)
    (phase : TaskPhase R) : (s.setPhase i task phase).Owned := by
  refine ⟨h.owned, h.cached, h.queued, fun task' htask' r hr => ?_⟩
  rcases List.mem_or_eq_of_mem_set htask' with htask' | rfl
  · exact h.heads task' htask' r hr
  · exact h.heads task (List.mem_of_getElem? hi) r hr

/-- **Entries stay.** Every step keeps the cache and the heap pointing to each other. -/
theorem Owned.step (h : s.Owned) {a : Action V R} (hst : (machine V R).step s a = some t) :
    t.Owned := by
  obtain ⟨ms, rfl, rfl⟩ | ⟨key, value, ttl, notified, rfl, rfl⟩ | ⟨key, ttl, rfl, rfl⟩ |
    ⟨key, rfl, rfl⟩ | ⟨watcher, rfl⟩ | ⟨time, rfl, rfl⟩ | ⟨i, task, phase, hi, rfl, -⟩ :=
    step_cases hst
  · exact ⟨h.owned, h.cached, h.queued, h.heads⟩
  · exact h.put key value ttl notified
  · exact h.setTtl key ttl
  · exact h.remove key
  · exact ⟨h.owned, h.cached, h.queued, h.heads⟩
  · exact h.pollFirst time
  · exact h.setPhase hi phase

/-- The invariant in every run. -/
theorem owned_of_reaches (h : (machine V R).Reaches {} s) : s.Owned :=
  h.invariant (fun hs hst => hs.step hst) owned_init

/-! ### Where callbacks come from -/

/-- The callbacks a task holds. -/
def held : TaskPhase R → List R
  | .running current todo => current.toList ++ todo
  | .submitted | .done | .dead => []

/-- Every callback in the cache has a property. -/
structure AllCallbacks (P : R → Prop) (s : TimeoutCache V R) : Prop where
  objects : ∀ r, ∀ callback ∈ (s.timedKeys r).runners, P callback
  tasks : ∀ task ∈ s.tasks, ∀ callback ∈ held task.phase, P callback

variable {P Q : R → Prop}

theorem allCallbacks_init : AllCallbacks P ({} : TimeoutCache V R) := ⟨nofun, nofun⟩

theorem AllCallbacks.mono (h : s.AllCallbacks P) (hPQ : ∀ callback, P callback → Q callback) :
    s.AllCallbacks Q :=
  ⟨fun r callback hc => hPQ _ (h.objects r callback hc),
    fun task htask callback hc => hPQ _ (h.tasks task htask callback hc)⟩

/-- Overwriting one object. -/
theorem AllCallbacks.update (h : s.AllCallbacks P) (htasks : t.tasks = s.tasks) {r : ℕ}
    {tkey : TimedKey R} (hkeys : t.timedKeys = Function.update s.timedKeys r tkey)
    (hP : ∀ callback ∈ tkey.runners, P callback) : t.AllCallbacks P := by
  refine ⟨fun x => ?_, htasks ▸ h.tasks⟩
  rw [hkeys]
  by_cases hx : x = r
  · rw [hx, Function.update_self]
    exact hP
  · rw [Function.update_of_ne hx]
    exact h.objects x

theorem AllCallbacks.put (h : s.AllCallbacks P) {key : String} {value : Option V} {ttl : ℤ}
    {notified : List R} (hP : ∀ callback ∈ notified, P callback) :
    (s.put key value ttl notified).AllCallbacks P :=
  h.update put_tasks put_timedKeys hP

theorem AllCallbacks.setTtl (h : s.AllCallbacks P) (key : String) (ttl : ℤ) :
    (s.setTtl key ttl).AllCallbacks P := by
  cases hk : s.cache key with
  | some holder =>
    rw [setTtl_of_some hk]
    exact h.update rfl rfl (h.objects holder.key)
  | none => rwa [setTtl_of_none hk]

theorem AllCallbacks.remove (h : s.AllCallbacks P) (key : String) :
    (s.remove key).AllCallbacks P := by
  cases hk : s.cache key with
  | some holder =>
    rw [remove_of_some hk]
    exact h.update rfl rfl nofun
  | none => rwa [remove_of_none hk]

/-- Callbacks come from `put` only. -/
theorem AllCallbacks.step (h : s.AllCallbacks P) {a : Action V R}
    (hput : ∀ key value ttl notified, a = .put key value ttl notified →
      ∀ callback ∈ notified, P callback)
    (hst : (machine V R).step s a = some t) : t.AllCallbacks P := by
  obtain ⟨ms, rfl, rfl⟩ | ⟨key, value, ttl, notified, rfl, rfl⟩ | ⟨key, ttl, rfl, rfl⟩ |
    ⟨key, rfl, rfl⟩ | ⟨watcher, rfl⟩ | ⟨time, rfl, rfl⟩ | ⟨i, task, phase, hi, rfl, hmove⟩ :=
    step_cases hst
  · exact ⟨h.objects, h.tasks⟩
  · exact h.put (hput _ _ _ _ rfl)
  · exact h.setTtl key ttl
  · exact h.remove key
  · exact ⟨h.objects, h.tasks⟩
  · refine ⟨h.objects, fun task htask => ?_⟩
    rcases List.mem_append.mp htask with htask | htask
    · exact h.tasks task htask
    · rw [List.mem_singleton.mp htask]
      exact nofun
  · refine ⟨h.objects, fun task' htask' => ?_⟩
    rcases List.mem_or_eq_of_mem_set htask' with htask' | rfl
    · exact h.tasks task' htask'
    · have hold := h.tasks task (List.mem_of_getElem? hi)
      obtain ⟨-, rfl⟩ | ⟨r, todo, -, hphase, rfl⟩ | ⟨r, todo, hphase, rfl | rfl⟩ | ⟨-, rfl⟩ := hmove
      · -- the copied callbacks are those of the object
        cases task.head with
        | some head => exact h.objects head
        | none => exact nofun
      · rw [hphase] at hold
        exact hold
      · rw [hphase] at hold
        exact fun callback hc => hold callback (List.mem_cons_of_mem _ hc)
      · exact nofun
      · exact nofun

theorem mem_held_of_next {phase : TaskPhase R} {callback : R} (h : next phase = some callback) :
    callback ∈ held phase := by
  unfold next at h
  split at h
  next => rw [← Option.some.inj h]; exact List.mem_cons_self
  next => cases h

end TimeoutCache

end Gwems
