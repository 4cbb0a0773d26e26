import Gwems.Servers.JsTimers
import Gwems.Util.TimeoutCacheArmed
import Gwems.Util.TimeoutCacheTasks

/-!
# `window.setInterval`: a callback that renews its own timer

The callback of an interval timer calls a function of a script, and when that returns it calls
`timeoutCache.setTtl` for its own key, which puts the popped object back into `timedQ`.
`clearInterval` does that as well, at any time, without the callbacks.

`Intervals` follows the callbacks of interval timers on the cache of a server (`ScriptedCache`): the
call of the function, and then `setTtl`. Everything else in the cache goes on in between.

* `at_most_one_call`: the calls of the function of one timer never overlap;
* `unspoiled_iff`: an exception in a callback ends its task, and an interval timer with it.
-/

namespace Gwems

/-- A `Runnable` in the cache: the callback of a timer of a script, with its function, or another
one. -/
inductive Notified (F B : Type*)
  | timeout (funct : F)
  | interval (timerId : String) (amt : ℤ) (funct : F)
  | other (runnable : B)

/-- The key of the interval timer that a callback belongs to. -/
def Notified.timerId {F B : Type*} : Notified F B → Option String
  | .interval timerId _ _ => some timerId
  | .timeout _ | .other _ => none

/-- The cache of a server with the callbacks of interval timers. -/
structure Intervals (V F B : Type*) where
  scripts : ScriptedCache V (Notified F B) := {}
  /-- The tasks that are inside such a callback, behind the call of the function. -/
  rearming : List ℕ := []

namespace Intervals

variable {V F B X : Type*}

/-- The cache. -/
def cache (s : Intervals V F B) : TimeoutCache V (Notified F B) := s.scripts.timeoutCache

/-- The callback that a task is inside of. -/
def running (s : Intervals V F B) (i : ℕ) : Option (Notified F B) :=
  s.cache.tasks[i]?.bind fun task => TimeoutCache.current task.phase

/-- The interval timer whose callback a task is inside of: its key and its `amt`. -/
def interval (s : Intervals V F B) (i : ℕ) : Option (String × ℤ) :=
  match s.running i with
  | some (.interval timerId amt _) => some (timerId, amt)
  | some (.timeout _) | some (.other _) | none => none

/-- The task is inside the call of the function of the timer. -/
def Calls (s : Intervals V F B) (i : ℕ) (timerId : String) : Prop :=
  (s.interval i).map Prod.fst = some timerId ∧ i ∉ s.rearming

instance (s : Intervals V F B) (i : ℕ) (timerId : String) : Decidable (s.Calls i timerId) :=
  inferInstanceAs (Decidable (_ ∧ _))

/-- What can happen next: a script sets a timer, the call of the function of an interval timer
returns or throws, the callback behind it calls `setTtl`, or anything else happens to the cache. -/
inductive Action (V F B X : Type*)
  | setTimeout (timerId : String) (engine : V) (amt : ℤ) (funct : F)
  | setInterval (timerId : String) (engine : V) (amt : ℤ) (funct : F)
  | returns (i : ℕ)
  | throws (i : ℕ)
  | setTtl (i : ℕ)
  | others (a : ScriptedCache.Action V (Notified F B) X)

/-- A move that is none of the others: no `setTimeout`, no `setInterval`, and not the end of the
callback of an interval timer. The server has callbacks of its own only. -/
def IsOther (s : Intervals V F B) : ScriptedCache.Action V (Notified F B) X → Prop
  | .setTimeout _ _ _ _ | .setInterval _ _ _ _ => False
  | .put _ _ _ notified => ∀ callback ∈ notified, callback.timerId = none
  | .cache (.finish i _) => s.interval i = none
  | .clearTimeout _ | .clearInterval _ | .cache _ => True

instance (s : Intervals V F B) (a : ScriptedCache.Action V (Notified F B) X) :
    Decidable (s.IsOther a) :=
  match a with
  | .setTimeout _ _ _ _ | .setInterval _ _ _ _ => isFalse not_false
  | .put _ _ _ notified =>
    inferInstanceAs (Decidable (∀ callback ∈ notified, callback.timerId = none))
  | .cache (.finish i _) => inferInstanceAs (Decidable (s.interval i = none))
  | .clearTimeout _ | .clearInterval _ | .cache (.tick _) | .cache (.put _ _ _ _)
  | .cache (.setTtl _ _) | .cache (.remove _) | .cache .wake | .cache .test | .cache .poll
  | .cache (.copy _) | .cache (.start _) | .cache (.close _) => isTrue trivial

/-- The callback of a task ends. -/
def finish (s : Intervals V F B) (i : ℕ) (returns : Bool) : Option (Intervals V F B) :=
  ((TimeoutCache.machine V (Notified F B)).step s.cache (.finish i returns)).map
    fun timeoutCache =>
      { scripts := { s.scripts with timeoutCache := timeoutCache }
        rearming := s.rearming.filter (· ≠ i) }

/-- `timeoutCache.setTtl(timerId, (int) amt)`. -/
def setTtl (s : Intervals V F B) (timerId : String) (amt : ℤ) : Intervals V F B :=
  { s with scripts := { s.scripts with timeoutCache := s.cache.setTtl timerId amt } }

/-- Scripts, server, cache and callbacks in any order. -/
def machine (V F B : Type*) (text : X → String) :
    Machine (Intervals V F B) (Action V F B X) where
  step s
    | .setTimeout timerId engine amt funct =>
      some { s with scripts := s.scripts.setTimeout timerId engine amt (.timeout funct) }
    | .setInterval timerId engine amt funct =>
      some { s with scripts :=
        s.scripts.setInterval timerId engine amt (.interval timerId amt funct) }
    | .returns i =>
      if s.interval i ≠ none ∧ i ∉ s.rearming then some { s with rearming := i :: s.rearming }
      else none
    | .throws i => if s.interval i ≠ none ∧ i ∉ s.rearming then s.finish i false else none
    | .setTtl i =>
      if i ∈ s.rearming then
        (s.interval i).bind fun timer => (s.setTtl timer.1 timer.2).finish i true
      else none
    | .others a =>
      if s.IsOther a then
        ((ScriptedCache.machine V (Notified F B) text).step s.scripts a).map fun scripts =>
          { s with scripts := scripts }
      else none

/-- The keys of timers are distinct from all other keys: a timer gets a key that is not in use, and
the server does not use the keys of timers. -/
def Distinct (s : Intervals V F B) : Action V F B X → Prop
  | .setTimeout timerId _ _ _ | .setInterval timerId _ _ _ => s.cache.cache timerId = none
  | .others (.put key _ _ _) | .others (.cache (.setTtl key _)) => s.scripts.scripted key = false
  | .returns _ | .throws _ | .setTtl _ | .others _ => True

instance [DecidableEq V] (s : Intervals V F B) (a : Action V F B X) : Decidable (Distinct s a) :=
  match a with
  | .setTimeout timerId _ _ _ | .setInterval timerId _ _ _ =>
    inferInstanceAs (Decidable (s.cache.cache timerId = none))
  | .others (.put key _ _ _) | .others (.cache (.setTtl key _)) =>
    inferInstanceAs (Decidable (s.scripts.scripted key = false))
  | .returns _ | .throws _ | .setTtl _ | .others (.setTimeout _ _ _ _)
  | .others (.setInterval _ _ _ _) | .others (.clearTimeout _) | .others (.clearInterval _)
  | .others (.cache (.tick _)) | .others (.cache (.put _ _ _ _)) | .others (.cache (.remove _))
  | .others (.cache .wake) | .others (.cache .test) | .others (.cache .poll)
  | .others (.cache (.copy _)) | .others (.cache (.start _)) | .others (.cache (.finish _ _))
  | .others (.cache (.close _)) => isTrue trivial

/-! ### One at a time

The callback of a timer is in the object or in a task. While the object has it, there is one task at
most that has it too or will copy it, and the object is not in `timedQ` at the same time. -/

open TimeoutCache (held current)

variable {s t : Intervals V F B} {timerId : String}

/-- The callbacks contain one of an interval timer. -/
def HasInterval (callbacks : List (Notified F B)) : Prop :=
  ∃ callback ∈ callbacks, callback.timerId ≠ none

theorem not_hasInterval_nil : ¬HasInterval ([] : List (Notified F B)) := by
  rintro ⟨callback, hc, -⟩
  exact absurd hc List.not_mem_nil

/-- The callbacks of interval timers among these belong to the key, and are alone. -/
def Proper (scripted : String → Bool) (key : String) (callbacks : List (Notified F B)) : Prop :=
  ∀ callback ∈ callbacks, ∀ timerId, callback.timerId = some timerId →
    timerId = key ∧ callbacks = [callback] ∧ scripted timerId = true

/-- A task for the object has a callback of an interval timer, or may still copy one. -/
def Pending (s : Intervals V F B) (r i : ℕ) : Prop :=
  ∃ task, s.cache.tasks[i]? = some task ∧ task.head = some r ∧
    (task.phase = .submitted ∨ HasInterval (held task.phase))

/-- A task for the object has a callback of an interval timer, and its function has still to be
called or is being called. -/
def Busy (s : Intervals V F B) (r i : ℕ) : Prop :=
  ∃ task, s.cache.tasks[i]? = some task ∧ task.head = some r ∧ HasInterval (held task.phase) ∧
    i ∉ s.rearming

/-- The invariant. -/
structure Alone (s : Intervals V F B) : Prop where
  reaches : (TimeoutCache.machine V (Notified F B)).Reaches {} s.cache
  objects : ∀ r < s.cache.allocated,
    Proper s.scripts.scripted (s.cache.timedKeys r).key (s.cache.timedKeys r).runners
  tasks : ∀ task ∈ s.cache.tasks, HasInterval (held task.phase) → ∃ r, task.head = some r ∧
    Proper s.scripts.scripted (s.cache.timedKeys r).key (held task.phase)
  /-- One task is busy with a timer. -/
  busy : ∀ r i j, s.Busy r i → s.Busy r j → i = j
  /-- A timer with its callback is not in `timedQ` while a task has it. -/
  queued : ∀ r < s.cache.allocated, HasInterval (s.cache.timedKeys r).runners →
    r ∈ s.cache.timedQ → ∀ i, ¬s.Pending r i
  /-- One task has, or will copy, the callback of a timer that has it. -/
  pending : ∀ r < s.cache.allocated, HasInterval (s.cache.timedKeys r).runners →
    ∀ i j, s.Pending r i → s.Pending r j → i = j

theorem Busy.pending {r i : ℕ} (h : s.Busy r i) : s.Pending r i := by
  obtain ⟨task, hi, hr, hhas, -⟩ := h
  exact ⟨task, hi, hr, .inr hhas⟩

theorem alone_init : Alone ({} : Intervals V F B) where
  reaches := .refl
  objects := fun r hr => absurd hr (Nat.not_lt_zero r)
  tasks := nofun
  busy := by
    rintro r i j ⟨task, hi, -⟩
    cases hi
  queued := fun r hr => absurd hr (Nat.not_lt_zero r)
  pending := fun r hr => absurd hr (Nat.not_lt_zero r)

/-- Busy and pending are about the tasks only. -/
theorem busy_congr (htasks : t.cache.tasks = s.cache.tasks) (hrearming : t.rearming = s.rearming)
    (r i : ℕ) : t.Busy r i ↔ s.Busy r i := by
  unfold Busy
  rw [htasks, hrearming]

theorem pending_congr (htasks : t.cache.tasks = s.cache.tasks) (r i : ℕ) :
    t.Pending r i ↔ s.Pending r i := by
  unfold Pending
  rw [htasks]

/-- Overwriting an object of the cache, under the key that it has. -/
theorem Alone.write (h : s.Alone) (ht : (TimeoutCache.machine V (Notified F B)).Reaches {} t.cache)
    {x : ℕ} {tkey : TimedKey (Notified F B)} (htasks : t.cache.tasks = s.cache.tasks)
    (hrearming : t.rearming = s.rearming)
    (hkeys : t.cache.timedKeys = Function.update s.cache.timedKeys x tkey)
    (hallocated : ∀ r < t.cache.allocated, r < s.cache.allocated ∨ r = x)
    (hkey : x < s.cache.allocated → tkey.key = (s.cache.timedKeys x).key)
    (hscripted : ∀ key, s.scripts.scripted key = true → t.scripts.scripted key = true)
    (hq : ∀ r ∈ t.cache.timedQ, r ∈ s.cache.timedQ ∨ r = x)
    (hproper : Proper t.scripts.scripted tkey.key tkey.runners)
    (hfree : HasInterval tkey.runners → ∀ i, ¬s.Pending x i) : t.Alone := by
  have howned := TimeoutCache.owned_of_reaches h.reaches
  have hself : t.cache.timedKeys x = tkey := by rw [hkeys, Function.update_self]
  have hother : ∀ r, r ≠ x → t.cache.timedKeys r = s.cache.timedKeys r := fun r hr => by
    rw [hkeys, Function.update_of_ne hr]
  have hmono : ∀ {key : String} {callbacks : List (Notified F B)},
      Proper s.scripts.scripted key callbacks → Proper t.scripts.scripted key callbacks :=
    fun hp callback hc timerId hid =>
      ⟨(hp callback hc timerId hid).1, (hp callback hc timerId hid).2.1,
        hscripted _ (hp callback hc timerId hid).2.2⟩
  have hbusy := busy_congr htasks hrearming
  have hpending := pending_congr htasks
  refine ⟨ht, fun r hr => ?_, fun task htask hhas => ?_, fun r i j hi hj => ?_,
    fun r hr hhas hrq i hi => ?_, fun r hr hhas i j hi hj => ?_⟩
  · by_cases hrx : r = x
    · rw [hrx, hself]
      exact hproper
    · rw [hother r hrx]
      exact hmono (h.objects r ((hallocated r hr).resolve_right hrx))
  · rw [htasks] at htask
    obtain ⟨r, hr, hp⟩ := h.tasks task htask hhas
    refine ⟨r, hr, ?_⟩
    by_cases hrx : r = x
    · subst hrx
      rw [hself, hkey (howned.heads task htask r hr)]
      exact hmono hp
    · rw [hother r hrx]
      exact hmono hp
  · exact h.busy r i j ((hbusy r i).mp hi) ((hbusy r j).mp hj)
  · rw [hpending] at hi
    by_cases hrx : r = x
    · subst hrx
      rw [hself] at hhas
      exact hfree hhas i hi
    · rw [hother r hrx] at hhas
      exact h.queued r ((hallocated r hr).resolve_right hrx) hhas ((hq r hrq).resolve_right hrx) i
        hi
  · rw [hpending] at hi hj
    by_cases hrx : r = x
    · subst hrx
      rw [hself] at hhas
      exact absurd hi (hfree hhas i)
    · rw [hother r hrx] at hhas
      exact h.pending r ((hallocated r hr).resolve_right hrx) hhas i j hi hj

/-- Moving one task on. -/
theorem Alone.setPhase (h : s.Alone)
    (ht : (TimeoutCache.machine V (Notified F B)).Reaches {} t.cache) {i : ℕ}
    {task : ExpiryTask (Notified F B)} {phase : TaskPhase (Notified F B)}
    (hi : s.cache.tasks[i]? = some task) (hcache : t.cache = s.cache.setPhase i task phase)
    (hscripted : t.scripts.scripted = s.scripts.scripted) (hrearming : t.rearming = s.rearming)
    (hheld : HasInterval (held phase) → ∃ r, task.head = some r ∧
      Proper s.scripts.scripted (s.cache.timedKeys r).key (held phase))
    (hpending : phase = .submitted ∨ HasInterval (held phase) →
      task.phase = .submitted ∨ HasInterval (held task.phase))
    (hbusy : HasInterval (held phase) → HasInterval (held task.phase) ∨
      ∀ r, task.head = some r → ∀ j, ¬s.Busy r j) : t.Alone := by
  have hself : t.cache.tasks[i]? = some { task with phase := phase } := by
    rw [hcache]
    exact TimeoutCache.setPhase_getElem?_self hi phase
  have hother : ∀ j, j ≠ i → t.cache.tasks[j]? = s.cache.tasks[j]? := fun j hj => by
    rw [hcache]
    exact TimeoutCache.setPhase_getElem?_of_ne (Ne.symm hj) task phase
  have hpend : ∀ {r j}, t.Pending r j → s.Pending r j := by
    rintro r j ⟨task', hj, hr, hphase⟩
    by_cases hji : j = i
    · subst hji
      obtain rfl := Option.some.inj (hself.symm.trans hj)
      exact ⟨task, hi, hr, hpending hphase⟩
    · exact ⟨task', (hother j hji).symm.trans hj, hr, hphase⟩
  -- only this task may be busy where it was not, and then no other one is
  have hbus : ∀ {r j}, t.Busy r j → s.Busy r j ∨ (j = i ∧ ∀ k, ¬s.Busy r k) := by
    rintro r j ⟨task', hj, hr, hhas, hout⟩
    rw [hrearming] at hout
    by_cases hji : j = i
    · subst hji
      obtain rfl := Option.some.inj (hself.symm.trans hj)
      rcases hbusy hhas with hold | hnone
      · exact .inl ⟨task, hi, hr, hold, hout⟩
      · exact .inr ⟨rfl, hnone r hr⟩
    · exact .inl ⟨task', (hother j hji).symm.trans hj, hr, hhas, hout⟩
  have hkeys : t.cache.timedKeys = s.cache.timedKeys := by rw [hcache]; rfl
  have hallocated : t.cache.allocated = s.cache.allocated := by rw [hcache]; rfl
  have hq : t.cache.timedQ = s.cache.timedQ := by rw [hcache]; rfl
  refine ⟨ht, ?_, fun task' htask' hhas => ?_, fun r j k hj hk => ?_, ?_, ?_⟩
  · rw [hallocated, hkeys, hscripted]
    exact h.objects
  · rw [hkeys, hscripted]
    obtain ⟨j, hj⟩ := List.mem_iff_getElem?.mp htask'
    by_cases hji : j = i
    · subst hji
      obtain rfl := Option.some.inj (hself.symm.trans hj)
      exact hheld hhas
    · exact h.tasks task' (List.mem_of_getElem? ((hother j hji).symm.trans hj)) hhas
  · rcases hbus hj with hj | ⟨rfl, hnone⟩
    · rcases hbus hk with hk | ⟨rfl, hnone⟩
      · exact h.busy r j k hj hk
      · exact absurd hj (hnone j)
    · rcases hbus hk with hk | ⟨rfl, -⟩
      · exact absurd hk (hnone k)
      · rfl
  · rw [hallocated, hkeys, hq]
    exact fun r hr hhas hrq j hj => h.queued r hr hhas hrq j (hpend hj)
  · rw [hallocated, hkeys]
    exact fun r hr hhas j k hj hk => h.pending r hr hhas j k (hpend hj) (hpend hk)

/-- Popping an object. -/
theorem Alone.pollFirst (h : s.Alone)
    (ht : (TimeoutCache.machine V (Notified F B)).Reaches {} t.cache) {time : ℤ}
    (hcache : t.cache = s.cache.pollFirst time)
    (hscripted : t.scripts.scripted = s.scripts.scripted) (hrearming : t.rearming = s.rearming) :
    t.Alone := by
  have hnodup := TimeoutCache.nodup_of_reaches h.reaches
  have htasks : t.cache.tasks = s.cache.tasks ++ [⟨s.cache.timedQ.head?, time, .submitted⟩] := by
    rw [hcache]
    rfl
  have hq : t.cache.timedQ = s.cache.timedQ.tail := by rw [hcache]; rfl
  have hkeys : t.cache.timedKeys = s.cache.timedKeys := by rw [hcache]; rfl
  have hallocated : t.cache.allocated = s.cache.allocated := by rw [hcache]; rfl
  have hsplit : ∀ {j : ℕ} {task : ExpiryTask (Notified F B)}, t.cache.tasks[j]? = some task →
      s.cache.tasks[j]? = some task ∨
        (j = s.cache.tasks.length ∧ task = ⟨s.cache.timedQ.head?, time, .submitted⟩) := by
    intro j task hj
    rw [htasks] at hj
    rcases lt_trichotomy j s.cache.tasks.length with hlt | heq | hgt
    · rw [List.getElem?_append_left hlt] at hj
      exact .inl hj
    · subst heq
      rw [List.getElem?_concat_length] at hj
      exact .inr ⟨rfl, (Option.some.inj hj).symm⟩
    · rw [List.getElem?_eq_none (by simp; omega)] at hj
      cases hj
  have hbus : ∀ {r j}, t.Busy r j → s.Busy r j := by
    rintro r j ⟨task, hj, hr, hhas, hout⟩
    rw [hrearming] at hout
    rcases hsplit hj with hj | ⟨-, rfl⟩
    · exact ⟨task, hj, hr, hhas, hout⟩
    · exact absurd hhas not_hasInterval_nil
  have hpend : ∀ {r j}, t.Pending r j →
      s.Pending r j ∨ (j = s.cache.tasks.length ∧ s.cache.timedQ.head? = some r) := by
    rintro r j ⟨task, hj, hr, hphase⟩
    rcases hsplit hj with hj | ⟨hlast, rfl⟩
    · exact .inl ⟨task, hj, hr, hphase⟩
    · exact .inr ⟨hlast, hr⟩
  refine ⟨ht, ?_, fun task htask hhas => ?_, fun r i j hi hj => h.busy r i j (hbus hi) (hbus hj),
    fun r hr hhas hrq i hi => ?_, fun r hr hhas i j hi hj => ?_⟩
  · rw [hallocated, hkeys, hscripted]
    exact h.objects
  · rw [hkeys, hscripted]
    rw [htasks, List.mem_append, List.mem_singleton] at htask
    rcases htask with htask | rfl
    · exact h.tasks task htask hhas
    · exact absurd hhas not_hasInterval_nil
  · rw [hallocated] at hr
    rw [hkeys] at hhas
    rw [hq] at hrq
    rcases hpend hi with hi | ⟨-, hfirst⟩
    · exact h.queued r hr hhas (List.mem_of_mem_tail hrq) i hi
    · -- the popped object is not in the rest
      obtain ⟨q, hrest⟩ := List.head?_eq_some_iff.mp hfirst
      rw [hrest] at hnodup hrq
      exact (List.nodup_cons.mp hnodup).1 hrq
  · rw [hallocated] at hr
    rw [hkeys] at hhas
    rcases hpend hi with hi | ⟨rfl, hfirst⟩
    · rcases hpend hj with hj | ⟨rfl, hfirst⟩
      · exact h.pending r hr hhas i j hi hj
      · exact absurd hi (h.queued r hr hhas (List.mem_of_mem_head? hfirst) i)
    · rcases hpend hj with hj | ⟨rfl, -⟩
      · exact absurd hj (h.queued r hr hhas (List.mem_of_mem_head? hfirst) j)
      · rfl

/-- The tasks that are behind their call of the function may change, as long as no other task gets
busy. -/
theorem Alone.congr (h : s.Alone) (hscripts : t.scripts = s.scripts)
    (hbusy : ∀ r i, t.Busy r i → s.Busy r i) : t.Alone := by
  have hcache : t.cache = s.cache := congrArg ScriptedCache.timeoutCache hscripts
  have hpending := pending_congr (congrArg TimeoutCache.tasks hcache)
  refine ⟨hcache ▸ h.reaches, ?_, ?_, fun r i j hi hj => h.busy r i j (hbusy r i hi) (hbusy r j hj),
    ?_, ?_⟩
  · rw [hcache, hscripts]
    exact h.objects
  · rw [hcache, hscripts]
    exact h.tasks
  · rw [hcache]
    simp only [hpending]
    exact h.queued
  · rw [hcache]
    simp only [hpending]
    exact h.pending

/-- Time passes, or the watcher looks at the first element. -/
theorem Alone.frame (h : s.Alone)
    (ht : (TimeoutCache.machine V (Notified F B)).Reaches {} t.cache)
    (hkeys : t.cache.timedKeys = s.cache.timedKeys)
    (hallocated : t.cache.allocated = s.cache.allocated) (hq : t.cache.timedQ = s.cache.timedQ)
    (htasks : t.cache.tasks = s.cache.tasks) (hscripted : t.scripts.scripted = s.scripts.scripted)
    (hrearming : t.rearming = s.rearming) : t.Alone := by
  have hbusy := busy_congr htasks hrearming
  have hpending := pending_congr htasks
  refine ⟨ht, ?_, ?_, ?_, ?_, ?_⟩
  · rw [hallocated, hkeys, hscripted]
    exact h.objects
  · rw [htasks, hkeys, hscripted]
    exact h.tasks
  · simp only [hbusy]
    exact h.busy
  · rw [hallocated, hkeys, hq]
    simp only [hpending]
    exact h.queued
  · rw [hallocated, hkeys]
    simp only [hpending]
    exact h.pending

/-- What a callback of an interval timer does not have behind it. -/
theorem not_hasInterval_of_cons {scripted : String → Bool} {key : String} {c : Notified F B}
    {todo : List (Notified F B)} (h : Proper scripted key (c :: todo)) : ¬HasInterval todo := by
  rintro ⟨callback, hc, hid⟩
  obtain ⟨timerId, hid⟩ := Option.ne_none_iff_exists'.mp hid
  have halone := (h callback (List.mem_cons_of_mem _ hc) timerId hid).2.1
  rw [(List.cons.inj halone).2] at hc
  exact List.not_mem_nil hc

/-- Behind a callback that is running there is no callback of a timer. -/
theorem Alone.not_hasInterval_todo (h : s.Alone) {i : ℕ} {task : ExpiryTask (Notified F B)}
    {c : Notified F B} {todo : List (Notified F B)} (hi : s.cache.tasks[i]? = some task)
    (hphase : task.phase = .running (some c) todo) : ¬HasInterval todo := by
  intro hhas
  have hhas' : HasInterval (held task.phase) := by
    obtain ⟨callback, hc, hid⟩ := hhas
    rw [hphase]
    exact ⟨callback, List.mem_cons_of_mem _ hc, hid⟩
  obtain ⟨r, -, hproper⟩ := h.tasks task (List.mem_of_getElem? hi) hhas'
  rw [hphase] at hproper
  exact not_hasInterval_of_cons hproper hhas

/-- A task copies the callbacks of its object: nobody else has them, if there is one of a timer. -/
theorem Alone.copied (h : s.Alone) {i : ℕ} {task : ExpiryTask (Notified F B)}
    (hi : s.cache.tasks[i]? = some task) (hphase : task.phase = .submitted)
    (ht : (TimeoutCache.machine V (Notified F B)).Reaches {}
      (s.cache.setPhase i task (s.cache.copied task.head))) :
    Alone { s with scripts := { s.scripts with
      timeoutCache := s.cache.setPhase i task (s.cache.copied task.head) } } := by
  cases hhead : task.head with
  | none =>
    rw [hhead] at ht
    exact h.setPhase ht hi rfl rfl rfl (fun hhas => absurd hhas not_hasInterval_nil)
      (fun _ => .inl hphase) fun hhas => absurd hhas not_hasInterval_nil
  | some r =>
    have hr := (TimeoutCache.owned_of_reaches h.reaches).heads task (List.mem_of_getElem? hi) r hhead
    rw [hhead] at ht
    refine h.setPhase ht hi rfl rfl rfl
      (fun _ => ⟨r, hhead, h.objects r hr⟩) (fun _ => .inl hphase)
      fun hhas => .inr fun r' hr' j hj => ?_
    obtain rfl : r = r' := Option.some.inj (hhead.symm.trans hr')
    have hij := h.pending r hr hhas i j ⟨task, hi, hhead, .inl hphase⟩ hj.pending
    subst hij
    obtain ⟨task', hi', -, hhas', -⟩ := hj
    obtain rfl := Option.some.inj (hi.symm.trans hi')
    rw [hphase] at hhas'
    exact not_hasInterval_nil hhas'

/-- A task comes to a phase with no callback of a timer in it. -/
theorem Alone.quiet (h : s.Alone) {i : ℕ} {task : ExpiryTask (Notified F B)}
    {phase : TaskPhase (Notified F B)} (hi : s.cache.tasks[i]? = some task)
    (hsubmitted : phase ≠ .submitted) (hnone : ¬HasInterval (held phase))
    (ht : (TimeoutCache.machine V (Notified F B)).Reaches {} (s.cache.setPhase i task phase)) :
    Alone { s with scripts := { s.scripts with
      timeoutCache := s.cache.setPhase i task phase } } :=
  h.setPhase ht hi rfl rfl rfl (fun hhas => absurd hhas hnone)
    (fun hor => absurd (hor.resolve_left hsubmitted) hnone) fun hhas => absurd hhas hnone

/-- The moves of the cache, but for a `put`, and for a `setTtl` of a timer. -/
theorem Alone.cache_step (h : s.Alone) {a : TimeoutCache.Action V (Notified F B)}
    {timeoutCache : TimeoutCache V (Notified F B)}
    (hst : (TimeoutCache.machine V (Notified F B)).step s.cache a = some timeoutCache)
    (hput : ∀ key value ttl notified, a ≠ .put key value ttl notified)
    (hsetTtl : ∀ key ttl, a = .setTtl key ttl → s.scripts.scripted key = false) :
    Alone { s with scripts := { s.scripts with timeoutCache := timeoutCache } } := by
  have ht : (TimeoutCache.machine V (Notified F B)).Reaches {} timeoutCache := h.reaches.tail hst
  have howned := TimeoutCache.owned_of_reaches h.reaches
  obtain ⟨ms, -, rfl⟩ | ⟨key, value, ttl, notified, rfl, -⟩ | ⟨key, ttl, rfl, rfl⟩ | ⟨key, -, rfl⟩ |
    ⟨watcher, rfl⟩ | ⟨time, -, rfl⟩ | ⟨i, task, phase, hi, rfl, hmove⟩ :=
    TimeoutCache.step_cases hst
  · exact h.frame ht rfl rfl rfl rfl rfl rfl
  · exact absurd rfl (hput key value ttl notified)
  · cases hk : s.cache.cache key with
    | none =>
      rw [TimeoutCache.setTtl_of_none hk] at ht ⊢
      exact h.frame ht rfl rfl rfl rfl rfl rfl
    | some holder =>
      obtain ⟨hlt, hkey⟩ := howned.cached key holder hk
      have hq : ∀ r ∈ (s.cache.setTtl key ttl).timedQ, r ∈ s.cache.timedQ ∨ r = holder.key :=
        fun r => TimeoutCache.mem_timedQ_of_mem_setTtl hk
      rw [TimeoutCache.setTtl_of_some hk] at ht ⊢
      refine h.write ht rfl rfl rfl (fun r hr => .inl hr) (fun _ => rfl) (fun _ => id) hq
        (h.objects holder.key hlt) fun ⟨callback, hc, hid⟩ => ?_
      -- the object of a key that no script has put has no callback of an interval timer
      obtain ⟨timerId, hid⟩ := Option.ne_none_iff_exists'.mp hid
      obtain ⟨hid, -, htrue⟩ := h.objects holder.key hlt callback hc timerId hid
      rw [hid, hkey, hsetTtl key ttl rfl] at htrue
      cases htrue
  · cases hk : s.cache.cache key with
    | none =>
      rw [TimeoutCache.remove_of_none hk] at ht ⊢
      exact h.frame ht rfl rfl rfl rfl rfl rfl
    | some holder =>
      have hq : ∀ r ∈ (s.cache.remove key).timedQ, r ∈ s.cache.timedQ ∨ r = holder.key :=
        fun r => TimeoutCache.mem_timedQ_of_mem_removeKey hk
      rw [TimeoutCache.remove_of_some hk] at ht ⊢
      refine h.write ht rfl rfl rfl (fun r hr => .inl hr) (fun _ => rfl) (fun _ => id) hq
        (fun callback hc => absurd hc List.not_mem_nil)
        fun hhas => absurd hhas not_hasInterval_nil
  · exact h.frame ht rfl rfl rfl rfl rfl rfl
  · exact h.pollFirst ht rfl rfl rfl
  · obtain ⟨hphase, rfl⟩ | ⟨c, todo, -, hphase, rfl⟩ | ⟨c, todo, hphase, hend⟩ | ⟨-, rfl⟩ := hmove
    · exact h.copied hi hphase ht
    · have hheld : held task.phase = held (.running (some c) todo) := by rw [hphase]; rfl
      refine h.setPhase ht hi rfl rfl rfl (fun hhas => ?_) (fun hor => .inr ?_) fun hhas => .inl ?_
      · rw [← hheld] at hhas ⊢
        exact h.tasks task (List.mem_of_getElem? hi) hhas
      · rw [hheld]
        exact hor.resolve_left nofun
      · rw [hheld]
        exact hhas
    · -- behind the callback of a timer there is no other one
      rcases hend with rfl | rfl
      · exact h.quiet hi nofun (h.not_hasInterval_todo hi hphase) ht
      · exact h.quiet hi nofun not_hasInterval_nil ht
    · exact h.quiet hi nofun not_hasInterval_nil ht

/-- What scripts have put stays so when a script puts. -/
theorem scripted_update {scripted : String → Bool} {k : String} (key : String)
    (hk : scripted k = true) : Function.update scripted key true k = true := by
  by_cases hkk : k = key
  · rw [hkk, Function.update_self]
  · rwa [Function.update_of_ne hkk]

/-- `put` by a script, which gives a new key to its timer, or by the server. -/
theorem Alone.put (h : s.Alone) {byScript : Bool} {key : String} {value : Option V} {ttl : ℤ}
    {notified : List (Notified F B)}
    (hscripted : ∀ k, s.scripts.scripted k = true →
      Function.update s.scripts.scripted key byScript k = true)
    (hproper : Proper (Function.update s.scripts.scripted key byScript) key notified)
    (hfree : HasInterval notified → ∀ i, ¬s.Pending (s.cache.put_ref key) i) :
    Alone { s with scripts := s.scripts.put byScript key value ttl notified } := by
  have howned := TimeoutCache.owned_of_reaches h.reaches
  have hst : (TimeoutCache.machine V (Notified F B)).step s.cache (.put key value ttl notified) =
      some (s.cache.put key value ttl notified) := rfl
  exact h.write (h.reaches.tail hst) TimeoutCache.put_tasks rfl TimeoutCache.put_timedKeys
    (fun _ => TimeoutCache.lt_or_eq_of_lt_put) (fun hx => (howned.key_put_ref hx).symm) hscripted
    (fun _ => TimeoutCache.mem_timedQ_of_mem_put) hproper hfree

theorem interval_eq_some {i : ℕ} {amt : ℤ} (h : s.interval i = some (timerId, amt)) :
    ∃ task funct todo, s.cache.tasks[i]? = some task ∧
      task.phase = .running (some (.interval timerId amt funct)) todo := by
  unfold interval at h
  split at h
  next timerId' amt' funct hrunning =>
    obtain ⟨rfl, rfl⟩ := Prod.mk.inj (Option.some.inj h)
    obtain ⟨task, hi, hcurrent⟩ := Option.bind_eq_some_iff.mp hrunning
    unfold TimeoutCache.current at hcurrent
    split at hcurrent
    next current todo hphase =>
      subst hcurrent
      exact ⟨task, funct, todo, hi, hphase⟩
    next => cases hcurrent
    next => cases hcurrent
    next => cases hcurrent
  next => cases h
  next => cases h
  next => cases h

/-- A callback ends. -/
theorem finish_eq_some {i : ℕ} {returns : Bool} (h : s.finish i returns = some t) :
    ∃ task c todo, s.cache.tasks[i]? = some task ∧ task.phase = .running (some c) todo ∧
      t.cache = s.cache.setPhase i task (if returns then .running none todo else .dead) ∧
      t.rearming = s.rearming.filter (· ≠ i) := by
  obtain ⟨timeoutCache, hcache, rfl⟩ := Option.map_eq_some_iff.mp h
  simp only [TimeoutCache.machine] at hcache
  split at hcache
  next head time c todo hi =>
    obtain rfl := Option.some.inj hcache
    exact ⟨_, c, todo, hi, rfl, rfl, rfl⟩
  next => cases hcache

/-- Nothing of a timer is left in a task whose callback ends. -/
theorem Alone.finish (h : s.Alone) {i : ℕ} {returns : Bool} (hst : s.finish i returns = some t) :
    t.Alone ∧ ∀ r, ¬t.Pending r i := by
  obtain ⟨task, c, todo, hi, hphase, hcache, hrearming⟩ := finish_eq_some hst
  have hdone : ∀ r, ¬t.Pending r i := by
    rintro r ⟨task', hi', -, hor⟩
    rw [hcache] at hi'
    obtain rfl := Option.some.inj ((TimeoutCache.setPhase_getElem?_self hi _).symm.trans hi')
    cases returns with
    | true => exact h.not_hasInterval_todo hi hphase (hor.resolve_left nofun)
    | false => exact not_hasInterval_nil (hor.resolve_left nofun)
  obtain ⟨timeoutCache, hstep, rfl⟩ := Option.map_eq_some_iff.mp hst
  refine ⟨(h.cache_step hstep nofun nofun).congr rfl ?_, hdone⟩
  rintro r j ⟨task', hj, hr, hhas, hout⟩
  refine ⟨task', hj, hr, hhas, fun hin => ?_⟩
  by_cases hji : j = i
  · subst hji
    exact hdone r ⟨task', hj, hr, .inr hhas⟩
  · exact hout (List.mem_filter.mpr ⟨hin, by simpa using hji⟩)

/-- `setTtl` does not see the tasks. -/
theorem setPhase_setTtl (c : TimeoutCache V (Notified F B)) (key : String) (ttl : ℤ) (i : ℕ)
    (task : ExpiryTask (Notified F B)) (phase : TaskPhase (Notified F B)) :
    (c.setTtl key ttl).setPhase i task phase = (c.setPhase i task phase).setTtl key ttl := by
  unfold TimeoutCache.setTtl
  cases hk : c.cache key with
  | none =>
    have hk' : (c.setPhase i task phase).cache key = none := hk
    rw [hk']
  | some holder =>
    have hk' : (c.setPhase i task phase).cache key = some holder := hk
    rw [hk']
    rfl

/-- `setTtl` and the end of a callback do not see each other. -/
theorem finish_setTtl {key : String} {ttl : ℤ} {i : ℕ} {returns : Bool}
    (h : (s.setTtl key ttl).finish i returns = some t) :
    ∃ u, s.finish i returns = some u ∧ t = u.setTtl key ttl := by
  obtain ⟨timeoutCache, hst, rfl⟩ := Option.map_eq_some_iff.mp h
  have hcache : (s.setTtl key ttl).cache = s.cache.setTtl key ttl := rfl
  simp only [TimeoutCache.machine] at hst
  split at hst
  next head time c todo hi =>
    obtain rfl := Option.some.inj hst
    rw [hcache, TimeoutCache.setTtl_tasks] at hi
    refine ⟨_, by simp only [finish, TimeoutCache.machine, hi]; rfl, ?_⟩
    rw [hcache, setPhase_setTtl]
    rfl
  next => cases hst

/-- A task inside the callback of a timer is for the object of the timer. -/
theorem Alone.exists_object (h : s.Alone) {i : ℕ} {amt : ℤ}
    (hi : s.interval i = some (timerId, amt)) :
    ∃ task r, s.cache.tasks[i]? = some task ∧ task.head = some r ∧ r < s.cache.allocated ∧
      (s.cache.timedKeys r).key = timerId ∧ HasInterval (held task.phase) := by
  obtain ⟨task, funct, todo, htask, hphase⟩ := interval_eq_some hi
  have hmem : .interval timerId amt funct ∈ held task.phase := by
    rw [hphase]
    exact List.mem_cons_self
  have hhas : HasInterval (held task.phase) := ⟨_, hmem, nofun⟩
  obtain ⟨r, hr, hproper⟩ := h.tasks task (List.mem_of_getElem? htask) hhas
  have hlt := (TimeoutCache.owned_of_reaches h.reaches).heads task (List.mem_of_getElem? htask) r hr
  exact ⟨task, r, htask, hr, hlt, (hproper _ hmem timerId rfl).1.symm, hhas⟩

/-- The callback of an interval timer renews it, and nobody else has the callback then. -/
theorem Alone.setTtl (h : s.Alone) {i : ℕ} {amt : ℤ} (hi : s.interval i = some (timerId, amt))
    (hst : (s.setTtl timerId amt).finish i true = some t) : t.Alone := by
  obtain ⟨u, hu, rfl⟩ := finish_setTtl hst
  have howned := TimeoutCache.owned_of_reaches h.reaches
  obtain ⟨halone, hdone⟩ := h.finish hu
  obtain ⟨task, r, htask, hr, hlt, hkey, hhas⟩ := h.exists_object hi
  obtain ⟨task', c, todo', hi', -, hcache, -⟩ := finish_eq_some hu
  have hk : ∃ value, u.cache.cache timerId = some { key := r, value := value } := by
    obtain ⟨value, hvalue⟩ := howned.owned r hlt
    rw [hkey] at hvalue
    exact ⟨value, by rw [hcache]; exact hvalue⟩
  obtain ⟨value, hk⟩ := hk
  have hfree : HasInterval (u.cache.timedKeys r).runners → ∀ j, ¬u.Pending r j := by
    intro hruns j hj
    rw [hcache] at hruns
    by_cases hji : j = i
    · subst hji
      exact hdone r hj
    · obtain ⟨taskj, htaskj, hrj, hor⟩ := hj
      rw [hcache, TimeoutCache.setPhase_getElem?_of_ne (Ne.symm hji)] at htaskj
      exact hji (h.pending r hlt hruns j i ⟨taskj, htaskj, hrj, hor⟩ ⟨task, htask, hr, .inr hhas⟩)
  have hst' : (TimeoutCache.machine V (Notified F B)).step u.cache (.setTtl timerId amt) =
      some (u.setTtl timerId amt).cache := rfl
  have hkeys : (u.setTtl timerId amt).cache.timedKeys = Function.update u.cache.timedKeys r
      { u.cache.timedKeys r with expires := u.cache.now + amt } :=
    congrArg TimeoutCache.timedKeys (TimeoutCache.setTtl_of_some hk)
  have hallocated : (u.cache.setTtl timerId amt).allocated = u.cache.allocated := by
    rw [TimeoutCache.setTtl_of_some hk]
  have hult : r < u.cache.allocated := by rw [hcache]; exact hlt
  exact halone.write (halone.reaches.tail hst') (TimeoutCache.setTtl_tasks amt) rfl hkeys
    (fun x hx => .inl (hallocated ▸ hx)) (fun _ => rfl) (fun _ => id)
    (fun x => TimeoutCache.mem_timedQ_of_mem_setTtl hk) (halone.objects r hult) hfree

/-- Moves that are none of the others. -/
theorem Alone.others_step (h : s.Alone) {text : X → String}
    {a : ScriptedCache.Action V (Notified F B) X} (ha : Distinct s (.others a))
    (hother : s.IsOther a) {scripts : ScriptedCache V (Notified F B)}
    (hscripts : (ScriptedCache.machine V (Notified F B) text).step s.scripts a = some scripts) :
    Alone { s with scripts := scripts } := by
  cases a with
  | setTimeout => exact absurd hother not_false
  | setInterval => exact absurd hother not_false
  | clearTimeout timeoutVariable =>
    cases hscripts
    exact h.cache_step (a := .remove (text timeoutVariable)) rfl nofun nofun
  | clearInterval timeoutVariable =>
    cases hscripts
    exact h.cache_step (a := .remove (text timeoutVariable)) rfl nofun nofun
  | put key value ttl notified =>
    cases hscripts
    refine h.put (fun k hk => ?_) (fun callback hc timerId hid => ?_) ?_
    · have hkey : s.scripts.scripted key = false := ha
      have hkk : k ≠ key := by
        rintro rfl
        rw [hk] at hkey
        cases hkey
      rwa [Function.update_of_ne hkk]
    · rw [hother callback hc] at hid
      cases hid
    · rintro ⟨callback, hc, hid⟩
      exact absurd (hother callback hc) hid
  | cache a =>
    simp only [ScriptedCache.machine] at hscripts
    split at hscripts
    next hkeeps =>
      obtain ⟨timeoutCache, hcache, rfl⟩ := Option.map_eq_some_iff.mp hscripts
      refine h.cache_step hcache ?_ ?_
      · rintro key value ttl notified rfl
        cases hkeeps
      · rintro key ttl rfl
        exact ha
    next => cases hscripts

/-- Every step keeps the invariant. -/
theorem Alone.step (h : s.Alone) {text : X → String} {a : Action V F B X} (ha : Distinct s a)
    (hst : (machine V F B text).step s a = some t) : t.Alone := by
  have howned := TimeoutCache.owned_of_reaches h.reaches
  cases a with
  | setTimeout timerId engine amt funct =>
    cases hst
    refine h.put (fun _ => scripted_update timerId) ?_ ?_
    · intro callback hc timerId' hid
      rw [List.mem_singleton.mp hc] at hid
      cases hid
    · rintro ⟨callback, hc, hid⟩
      rw [List.mem_singleton.mp hc] at hid
      exact absurd rfl hid
  | setInterval timerId engine amt funct =>
    cases hst
    refine h.put (fun _ => scripted_update timerId) ?_ ?_
    · intro callback hc timerId' hid
      obtain rfl := List.mem_singleton.mp hc
      obtain rfl : timerId = timerId' := Option.some.inj hid
      exact ⟨rfl, rfl, Function.update_self ..⟩
    · -- the object is new
      rintro - i ⟨task, hi, hr, -⟩
      have hlt := howned.heads task (List.mem_of_getElem? hi) _ hr
      rw [TimeoutCache.put_ref_of_none ha] at hlt
      exact lt_irrefl _ hlt
  | returns i =>
    simp only [machine] at hst
    split at hst
    next =>
      cases hst
      refine h.congr rfl ?_
      rintro r j ⟨task, hj, hr, hhas, hout⟩
      exact ⟨task, hj, hr, hhas, fun hin => hout (List.mem_cons_of_mem _ hin)⟩
    next => cases hst
  | throws i =>
    simp only [machine] at hst
    split at hst
    next => exact (h.finish hst).1
    next => cases hst
  | setTtl i =>
    simp only [machine] at hst
    split at hst
    next =>
      obtain ⟨⟨timerId, amt⟩, hi, hst⟩ := Option.bind_eq_some_iff.mp hst
      exact h.setTtl hi hst
    next => cases hst
  | others a =>
    simp only [machine] at hst
    split at hst
    next hother =>
      obtain ⟨scripts, hscripts, rfl⟩ := Option.map_eq_some_iff.mp hst
      exact h.others_step ha hother hscripts
    next => cases hst

/-- A task that calls the function of a timer is busy with its object. -/
theorem Alone.busy_of_calls (h : s.Alone) {i : ℕ} (hcall : s.Calls i timerId) :
    ∃ r < s.cache.allocated, (s.cache.timedKeys r).key = timerId ∧ s.Busy r i := by
  obtain ⟨hfirst, hout⟩ := hcall
  obtain ⟨⟨timerId', amt⟩, hi, hid⟩ := Option.map_eq_some_iff.mp hfirst
  obtain rfl : timerId' = timerId := hid
  obtain ⟨task, r, htask, hr, hlt, hkey, hhas⟩ := h.exists_object hi
  exact ⟨r, hlt, hkey, task, htask, hr, hhas, hout⟩

/-- **Calls do not overlap.** In every run in which the keys of timers are distinct from all other
keys, two tasks that are inside a call of the function of one timer are the same task, whoever
cancels the timer and when. -/
theorem at_most_one_call {text : X → String}
    (h : (machine V F B text).Runs Distinct {} s) {i j : ℕ} (hi : s.Calls i timerId)
    (hj : s.Calls j timerId) : i = j := by
  have halone : s.Alone := h.invariant (I := Alone) (fun ha hs hst => hs.step ha hst) alone_init
  obtain ⟨r, hr, hkey, hbusy⟩ := halone.busy_of_calls hi
  obtain ⟨r', hr', hkey', hbusy'⟩ := halone.busy_of_calls hj
  have hrr : r = r' :=
    (TimeoutCache.owned_of_reaches halone.reaches).ref_inj hr hr' (hkey.trans hkey'.symm)
  subst hrr
  exact halone.busy r i j hbusy hbusy'

/-- The second call for a timer of five milliseconds. -/
theorem at_most_one_call_timer : ∃ s : Intervals String String String,
    (machine String String String (id : String → String)).Runs Distinct {} s ∧
      s.Calls 1 "timer" ∧ ∀ j, s.Calls j "timer" → 1 = j := by
  obtain ⟨s, hrun, hcall⟩ := Machine.Runs.exists_of_run
    (m := machine String String String (id : String → String)) (G := Distinct) (s := {})
    (P := fun s => s.Calls 1 "timer")
    [.setInterval "timer" "engine" 5 "f", .others (.cache (.tick 5)), .others (.cache .wake),
      .others (.cache .test), .others (.cache .poll), .others (.cache .test),
      .others (.cache (.copy 0)), .others (.cache (.start 0)), .returns 0, .setTtl 0,
      .others (.cache (.tick 5)), .others (.cache .wake), .others (.cache .test),
      .others (.cache .poll), .others (.cache (.copy 1)), .others (.cache (.start 1))] (by decide)
  exact ⟨s, hrun, hcall, fun j hj => at_most_one_call hrun hcall hj⟩

/-! ### Exceptions -/

/-- The timer is in `timedQ`, and its time will come again. -/
def Queued (s : Intervals V F B) (timerId : String) : Prop :=
  ∃ holder, s.cache.cache timerId = some holder ∧ holder.key ∈ s.cache.timedQ

/-- The timer has its callback: it has not been cancelled. -/
def Keeps (s : Intervals V F B) (timerId : String) : Prop :=
  ∃ holder, s.cache.cache timerId = some holder ∧
    HasInterval (s.cache.timedKeys holder.key).runners

/-- A timer that has not been cancelled is queued again at the end of its callback exactly if that
gets to its `setTtl`. -/
theorem Alone.queued_iff (h : s.Alone) {text : X → String} {i : ℕ} {amt : ℤ}
    (hi : s.interval i = some (timerId, amt)) (hkeeps : s.Keeps timerId) {a : Action V F B X}
    (ha : a = .throws i ∨ a = .setTtl i) (hst : (machine V F B text).step s a = some t) :
    t.Queued timerId ↔ a = .setTtl i := by
  have howned := TimeoutCache.owned_of_reaches h.reaches
  obtain ⟨holder, hk, hhas⟩ := hkeeps
  obtain ⟨task, r, htask, hr, hlt, hkey, hheld⟩ := h.exists_object hi
  have hrr : holder.key = r :=
    howned.ref_inj (howned.cached timerId holder hk).1 hlt
      ((howned.cached timerId holder hk).2.trans hkey.symm)
  rcases ha with rfl | rfl
  · -- the task had popped the timer, and leaves it there
    refine iff_of_false ?_ nofun
    rintro ⟨holder', hk', hq⟩
    simp only [machine] at hst
    split at hst
    next =>
      obtain ⟨task', c, todo, -, -, hcache, -⟩ := finish_eq_some hst
      rw [hcache] at hk' hq
      obtain rfl := Option.some.inj (hk.symm.trans hk')
      exact h.queued holder.key (howned.cached timerId holder hk).1 hhas hq i
        ⟨task, htask, hrr ▸ hr, .inr hheld⟩
    next => cases hst
  · refine iff_of_true ?_ rfl
    simp only [machine] at hst
    split at hst
    next =>
      rw [hi, Option.bind_some] at hst
      obtain ⟨u, hu, rfl⟩ := finish_setTtl hst
      obtain ⟨task', c, todo, -, -, hcache, -⟩ := finish_eq_some hu
      have huk : u.cache.cache timerId = some holder := by
        rw [hcache]
        exact hk
      have huowned := TimeoutCache.owned_of_reaches (h.finish hu).1.reaches
      refine ⟨holder, ?_, TimeoutCache.mem_timedQ_setTtl huowned huk amt⟩
      change (u.cache.setTtl timerId amt).cache timerId = some holder
      rw [TimeoutCache.setTtl_of_some huk]
      exact huk
    next => cases hst

variable {R : Type*} {text : X → String}

/-- **What an exception spoils.** Whatever callbacks an object has, and whichever of them throw: a
task that copies them can be run to its end, and it has then started every one of them once, in
order, and got to its last block, exactly if none of them throws. And an interval timer that has not
been cancelled is queued again behind the call of its function exactly if that did not throw. -/
theorem unspoiled_iff :
    (∀ (throws : R → Bool) (s t : TimeoutCache V R) (i r : ℕ) (task : ExpiryTask R),
      s.tasks[i]? = some task → task.head = some r →
      (TimeoutCache.machine V R).step s (.copy i) = some t →
      (∃ as u, (TimeoutCache.machine V R).run t as = some u ∧
        (TimeoutCache.machine V R).Along (TimeoutCache.Follows throws) t as ∧ u.Ended i) ∧
      ∀ as u, (TimeoutCache.machine V R).run t as = some u →
        (TimeoutCache.machine V R).Along (TimeoutCache.Follows throws) t as → u.Ended i →
        ((TimeoutCache.started i t as = (s.timedKeys r).runners ∧ u.Closed i) ↔
          ∀ callback ∈ (s.timedKeys r).runners, throws callback = false)) ∧
    ∀ (s t : Intervals V F B) (i : ℕ) (timerId : String) (amt : ℤ) (a : Action V F B X),
      (machine V F B text).Runs Distinct {} s → s.interval i = some (timerId, amt) →
      s.Keeps timerId → a = .throws i ∨ a = .setTtl i →
      (machine V F B text).step s a = some t → (t.Queued timerId ↔ a = .setTtl i) := by
  refine ⟨fun throws s t i r task hi hr hcopy => TimeoutCache.completes_iff throws hi hr hcopy,
    fun s t i timerId amt a hs hi hkeeps ha hst => ?_⟩
  have halone : s.Alone := hs.invariant (I := Alone) (fun ha hs hst => hs.step ha hst) alone_init
  exact halone.queued_iff hi hkeeps ha hst

/-- The function of a timer throws at its first call. -/
theorem unspoiled_iff_throws : ∃ s t : Intervals String String String,
    (machine String String String (id : String → String)).Runs Distinct {} s ∧
      (machine String String String (id : String → String)).step s (.throws 0) = some t ∧
      ¬t.Queued "timer" := by
  obtain ⟨s, hrun, hi, hk, hrunners, hstep⟩ := Machine.Runs.exists_of_run
    (m := machine String String String (id : String → String)) (G := Distinct) (s := {})
    (P := fun s => s.interval 0 = some ("timer", 5) ∧
      s.cache.cache "timer" = some { key := 0, value := some "engine" } ∧
      (s.cache.timedKeys 0).runners.map Notified.timerId = [some "timer"] ∧
      ((machine String String String (id : String → String)).step s (.throws 0)).isSome = true)
    [.setInterval "timer" "engine" 5 "f", .others (.cache (.tick 5)), .others (.cache .wake),
      .others (.cache .test), .others (.cache .poll), .others (.cache (.copy 0)),
      .others (.cache (.start 0))] (by decide)
  obtain ⟨t, ht⟩ := Option.isSome_iff_exists.mp hstep
  have hkeeps : s.Keeps "timer" := by
    have hmem : some "timer" ∈ (s.cache.timedKeys 0).runners.map Notified.timerId := by
      rw [hrunners]
      exact List.mem_cons_self
    obtain ⟨callback, hc, hid⟩ := List.mem_map.mp hmem
    exact ⟨_, hk, callback, hc, by rw [hid]; exact nofun⟩
  have hiff := (@unspoiled_iff String String String String String id).2 s t 0 "timer" 5
    (.throws 0) hrun hi hkeeps (.inl rfl) ht
  exact ⟨s, t, hrun, ht, fun hq => nomatch hiff.mp hq⟩

/-- A callback that throws, with another one behind it. -/
theorem not_forall_completes :
    ¬∀ (throws : String → Bool) (s t u : TimeoutCache String String) (i r : ℕ)
      (task : ExpiryTask String) (as : List (TimeoutCache.Action String String)),
      (TimeoutCache.machine String String).Reaches {} s → s.tasks[i]? = some task →
      task.head = some r → (TimeoutCache.machine String String).step s (.copy i) = some t →
      (TimeoutCache.machine String String).run t as = some u →
      (TimeoutCache.machine String String).Along (TimeoutCache.Follows throws) t as → u.Ended i →
      TimeoutCache.started i t as = (s.timedKeys r).runners ∧ u.Closed i := by
  intro hall
  obtain ⟨s, hs, hi, hrunners⟩ := Machine.Reaches.exists_of_run
    (m := TimeoutCache.machine String String) (s := {})
    (P := fun s => s.tasks[0]? = some ⟨some 0, 1, .submitted⟩ ∧
      (s.timedKeys 0).runners = ["bad", "second"])
    [.put "k" (some "v") 1 ["bad", "second"], .tick 1, .wake, .test, .poll] (by decide)
  have hcopy : (TimeoutCache.machine String String).step s (.copy 0) =
      some (s.setPhase 0 ⟨some 0, 1, .submitted⟩ (s.copied (some 0))) := by
    simp [TimeoutCache.machine, hi]
  obtain ⟨⟨as, u, hrun, halong, hend⟩, hiff⟩ :=
    TimeoutCache.completes_iff (fun callback => callback == "bad") hi rfl hcopy
  have hnone := (hiff as u hrun halong hend).mp
    (hall _ s _ u 0 0 _ as hs hi rfl hcopy hrun halong hend)
  rw [hrunners] at hnone
  exact absurd (hnone "bad" List.mem_cons_self) (by decide)

end Intervals

end Gwems
