import Gwems.Util.TimeoutCache

/-!
# When the callbacks of a `TimeoutCache` start

A callback should not start before the deadline its key has been given last. Two windows break
this. Between the watcher's test and its pop, a renewal moves the tested entry back, and the
watcher pops whatever comes first then, due or not. Between the pop and the copy of the
callbacks, and between the copy and their starts, a renewal or a new `put` comes too late to
stop the task. `stale_start` is one run for each.

`OnTime` excludes the two windows, step by step: a popped entry is due or has no callbacks, and
a deadline in the future is set for a key only when no popped task of the key has a callback
left to start. In every run without these steps no callback starts early (`starts_on_time`).

The invariant is `Timely`: an entry in `timedQ` that has callbacks carries the deadline set
last for its key, and for the key of a task with callbacks left to start that deadline has
passed.
-/

namespace Gwems

namespace TimeoutCache

variable {V R : Type*} {s t : TimeoutCache V R} {key : String}

/-- The callbacks a task has still to start, if its object has the callbacks `runners` when it
copies them. -/
def left (runners : List R) : TaskPhase R → List R
  | .submitted => runners
  | .running _ todo => todo
  | .done | .dead => []

/-- A step outside the two windows, in the state before it. -/
def OnTime (s : TimeoutCache V R) : Action V R → Prop
  | .poll => ∀ r ∈ s.timedQ.head?, (s.timedKeys r).expires ≤ s.now ∨ (s.timedKeys r).runners = []
  | .put key _ ttl notified =>
    ttl ≤ 0 ∨ ∀ task ∈ s.tasks, ∀ r ∈ task.head, (s.timedKeys r).key = key →
      left notified task.phase = []
  | .setTtl key ttl =>
    ttl ≤ 0 ∨ ∀ task ∈ s.tasks, ∀ r ∈ task.head, (s.timedKeys r).key = key →
      left (s.timedKeys r).runners task.phase = []
  | .tick _ | .remove _ | .wake | .test | .copy _ | .start _ | .finish _ _ | .close _ => True

instance [DecidableEq R] (s : TimeoutCache V R) (a : Action V R) : Decidable (OnTime s a) :=
  match a with
  | .poll => inferInstanceAs (Decidable (∀ r ∈ s.timedQ.head?,
      (s.timedKeys r).expires ≤ s.now ∨ (s.timedKeys r).runners = []))
  | .put key _ ttl notified => inferInstanceAs (Decidable (ttl ≤ 0 ∨ ∀ task ∈ s.tasks,
      ∀ r ∈ task.head, (s.timedKeys r).key = key → left notified task.phase = []))
  | .setTtl key ttl => inferInstanceAs (Decidable (ttl ≤ 0 ∨ ∀ task ∈ s.tasks, ∀ r ∈ task.head,
      (s.timedKeys r).key = key → left (s.timedKeys r).runners task.phase = []))
  | .tick _ | .remove _ | .wake | .test | .copy _ | .start _ | .finish _ _ | .close _ =>
    isTrue trivial

/-- The deadline set last for a key has passed. -/
def Due (s : TimeoutCache V R) (key : String) : Prop := ∀ deadline ∈ s.lastSet key, deadline ≤ s.now

/-- The invariant. -/
structure Timely (s : TimeoutCache V R) : Prop where
  owned : s.Owned
  /-- A queued entry with callbacks carries the deadline set last for its key. -/
  queued : ∀ r ∈ s.timedQ, (s.timedKeys r).runners ≠ [] →
    s.lastSet (s.timedKeys r).key = some (s.timedKeys r).expires
  /-- A task with callbacks left to start belongs to a key whose deadline has passed. -/
  popped : ∀ task ∈ s.tasks, ∀ r ∈ task.head, left (s.timedKeys r).runners task.phase ≠ [] →
    s.Due (s.timedKeys r).key

theorem timely_init : Timely ({} : TimeoutCache V R) := ⟨owned_init, nofun, nofun⟩

/-- Setting a deadline and callbacks for the key of one object keeps the invariant, if no task of
the key has callbacks left to start or the deadline is not in the future. -/
theorem Timely.set (h : s.Timely) (ht : t.Owned) {r : ℕ} {tkey : TimedKey R} {ttl : ℤ}
    (hnow : t.now = s.now) (htasks : t.tasks = s.tasks)
    (hkeys : t.timedKeys = Function.update s.timedKeys r tkey)
    (hlast : t.lastSet = Function.update s.lastSet tkey.key (some (s.now + ttl)))
    (hexpires : tkey.expires = s.now + ttl) (hq : ∀ x ∈ t.timedQ, x ∈ s.timedQ ∨ x = r)
    (hunique : ∀ x, x < s.allocated → ((s.timedKeys x).key = tkey.key ↔ x = r))
    (hleft : ttl ≤ 0 ∨ ∀ task ∈ s.tasks, ∀ x ∈ task.head, (s.timedKeys x).key = tkey.key →
      left tkey.runners task.phase = []) : t.Timely := by
  have hself : t.timedKeys r = tkey := by rw [hkeys, Function.update_self]
  have hother : ∀ x, x ≠ r → t.timedKeys x = s.timedKeys x := fun x hx => by
    rw [hkeys, Function.update_of_ne hx]
  have hlastself : t.lastSet tkey.key = some (s.now + ttl) := by rw [hlast, Function.update_self]
  -- another object has another key, and nothing is set for it
  have hlastother : ∀ x, x < s.allocated → x ≠ r → t.lastSet (s.timedKeys x).key =
      s.lastSet (s.timedKeys x).key := fun x hx hxr => by
    rw [hlast, Function.update_of_ne fun hkey => hxr ((hunique x hx).mp hkey)]
  refine ⟨ht, fun x hx hrunners => ?_, fun task htask x hx hne => ?_⟩
  · by_cases hxr : x = r
    · rw [hxr, hself, hlastself, hexpires]
    · have hxs : x ∈ s.timedQ := (hq x hx).resolve_right hxr
      rw [hother x hxr] at hrunners ⊢
      rw [hlastother x (h.owned.queued x hxs) hxr]
      exact h.queued x hxs hrunners
  · rw [htasks] at htask
    have hlt : x < s.allocated := h.owned.heads task htask x hx
    by_cases hxr : x = r
    · subst hxr
      rw [hself] at hne ⊢
      intro deadline hdeadline
      rw [hlastself, Option.mem_some] at hdeadline
      rcases hleft with httl | hleft
      · omega
      · exact absurd (hleft task htask x hx ((hunique x hlt).mpr rfl)) hne
    · rw [hother x hxr] at hne ⊢
      intro deadline hdeadline
      rw [hlastother x hlt hxr] at hdeadline
      rw [hnow]
      exact h.popped task htask x hx hne deadline hdeadline

theorem Timely.put (h : s.Timely) {value : Option V} {ttl : ℤ} {notified : List R}
    (hsafe : OnTime s (.put key value ttl notified)) : (s.put key value ttl notified).Timely := by
  refine h.set (h.owned.put key value ttl notified) put_now put_tasks put_timedKeys put_lastSet rfl
    (fun x => mem_timedQ_of_mem_put) (fun x hx => ⟨h.owned.eq_put_ref hx, fun hxr => ?_⟩) hsafe
  cases hk : s.cache key with
  | some holder => rw [hxr, put_ref_of_some hk]; exact (h.owned.cached key holder hk).2
  | none => rw [put_ref_of_none hk] at hxr; omega

theorem Timely.setTtl (h : s.Timely) {ttl : ℤ} (hsafe : OnTime s (.setTtl key ttl)) :
    (s.setTtl key ttl).Timely := by
  cases hk : s.cache key with
  | none => rwa [setTtl_of_none hk]
  | some holder =>
    obtain ⟨hlt, hkey⟩ := h.owned.cached key holder hk
    have howned := h.owned.setTtl key ttl
    rw [setTtl_of_some hk] at howned ⊢
    refine h.set (r := holder.key) howned rfl rfl rfl ?_ rfl
      (fun x => mem_timedQ_of_mem_setTtl hk) (fun x hx => ⟨fun hx' => ?_, fun hxr => ?_⟩) ?_
    · rw [hkey]
    · exact h.owned.ref_inj hx hlt hx'
    · rw [hxr]
    · rcases hsafe with httl | hleft
      · exact .inl httl
      · refine .inr fun task htask x hx hxk => ?_
        have hxr : x = holder.key := h.owned.ref_inj (h.owned.heads task htask x hx) hlt hxk
        have hnone := hleft task htask x hx (hxr ▸ hkey)
        rwa [hxr] at hnone

/-- A removed entry has no callbacks any more. -/
theorem Timely.remove (h : s.Timely) (key : String) : (s.remove key).Timely := by
  cases hk : s.cache key with
  | none => rwa [remove_of_none hk]
  | some holder =>
    have howned := h.owned.remove key
    rw [remove_of_some hk] at howned ⊢
    have hother : ∀ x, x ≠ holder.key → Function.update s.timedKeys holder.key
        { s.timedKeys holder.key with runners := [], expires := s.now - 1 } x = s.timedKeys x :=
      fun x hx => Function.update_of_ne hx ..
    refine ⟨howned, fun x hx hrunners => ?_, fun task htask x hx hne => ?_⟩
    · by_cases hxr : x = holder.key
      · subst hxr
        simp at hrunners
      · simp only [hother x hxr] at hrunners ⊢
        exact h.queued x ((mem_timedQ_of_mem_removeKey hk hx).resolve_right hxr) hrunners
    · by_cases hxr : x = holder.key
      · -- callbacks that a task has copied are not affected
        subst hxr
        have hpopped := h.popped task htask _ hx
        cases hphase : task.phase with
        | running current todo =>
          rw [hphase] at hne hpopped
          simpa [Due] using hpopped hne
        | submitted | done | dead => rw [hphase] at hne; simp [left] at hne
      · simp only [hother x hxr] at hne ⊢
        exact h.popped task htask x hx hne

theorem Timely.pollFirst (h : s.Timely) {time : ℤ} (hsafe : OnTime s .poll) :
    (s.pollFirst time).Timely := by
  refine ⟨h.owned.pollFirst time, fun r hr => h.queued r (List.mem_of_mem_tail hr), ?_⟩
  intro task htask r hr hne
  rcases List.mem_append.mp htask with htask | htask
  · exact h.popped task htask r hr hne
  · rw [List.mem_singleton.mp htask] at hr hne
    have hmem : r ∈ s.timedQ := List.mem_of_mem_head? hr
    rcases hsafe r hr with hdue | hnone
    · -- the popped entry carries the deadline set last, and it is due
      intro deadline hdeadline
      have hlast : s.lastSet (s.timedKeys r).key = some deadline := hdeadline
      rw [h.queued r hmem hne, Option.some.injEq] at hlast
      exact hlast ▸ hdue
    · exact absurd hnone hne

/-- A task that moves on has no more callbacks left than before. -/
theorem Timely.setPhase (h : s.Timely) {i : ℕ} {task : ExpiryTask R} {phase : TaskPhase R}
    (hi : s.tasks[i]? = some task)
    (hleft : ∀ r ∈ task.head, left (s.timedKeys r).runners phase ≠ [] →
      left (s.timedKeys r).runners task.phase ≠ []) : (s.setPhase i task phase).Timely := by
  refine ⟨h.owned.setPhase hi phase, h.queued, fun task' htask' r hr hne => ?_⟩
  rcases List.mem_or_eq_of_mem_set htask' with htask' | rfl
  · exact h.popped task' htask' r hr hne
  · exact h.popped task (List.mem_of_getElem? hi) r hr (hleft r hr hne)

theorem Timely.step (h : s.Timely) {a : Action V R} (hsafe : OnTime s a)
    (hst : (machine V R).step s a = some t) : t.Timely := by
  obtain ⟨ms, rfl, rfl⟩ | ⟨k, value, ttl, notified, rfl, rfl⟩ | ⟨k, ttl, rfl, rfl⟩ | ⟨k, rfl, rfl⟩ |
    ⟨watcher, rfl⟩ | ⟨time, rfl, rfl⟩ | ⟨i, task, phase, hi, rfl, hmove⟩ := step_cases hst
  · -- what is due stays due
    refine ⟨⟨h.owned.owned, h.owned.cached, h.owned.queued, h.owned.heads⟩, h.queued, ?_⟩
    intro task htask r hr hne deadline hdeadline
    have hle : deadline ≤ s.now := h.popped task htask r hr hne deadline hdeadline
    exact hle.trans (by simp)
  · exact h.put hsafe
  · exact h.setTtl hsafe
  · exact h.remove k
  · exact ⟨⟨h.owned.owned, h.owned.cached, h.owned.queued, h.owned.heads⟩, h.queued, h.popped⟩
  · exact h.pollFirst hsafe
  · refine h.setPhase hi fun r hr => ?_
    obtain ⟨hphase, rfl⟩ | ⟨c, todo, -, hphase, rfl⟩ | ⟨c, todo, hphase, rfl | rfl⟩ |
      ⟨hphase, rfl⟩ := hmove <;> rw [hphase]
    · rw [Option.mem_def.mp hr]
      exact id
    · exact fun _ hnil => List.cons_ne_nil _ _ hnil
    · exact id
    · exact fun hne => absurd rfl hne
    · exact fun hne => absurd rfl hne

theorem next_eq_some {phase : TaskPhase R} {callback : R} (h : next phase = some callback)
    (runners : List R) : left runners phase ≠ [] := by
  unfold next at h
  split at h
  next => exact List.cons_ne_nil _ _
  next => cases h

/-- **No early start.** In every run outside the two windows, a callback that a task is about to
start belongs to a key whose last deadline has passed. -/
theorem starts_on_time (h : (machine V R).Runs OnTime {} s) {callback : R}
    (hstart : s.AboutToStart key callback) : ∀ deadline ∈ s.lastSet key, deadline ≤ s.now := by
  have hs : s.Timely := h.invariant (fun hsafe ht hst => ht.step hsafe hst) timely_init
  obtain ⟨task, htask, hnext, hhead⟩ := hstart
  obtain ⟨head, hmem, hkey⟩ := (Option.any_eq_true _ _).mp hhead
  have hdue := hs.popped task htask head hmem (next_eq_some hnext _)
  rwa [of_decide_eq_true hkey] at hdue

/-- An entry that is renewed in time and expires later. -/
theorem starts_on_time_renewed :
    ∃ s, (machine String String).Runs OnTime {} s ∧ s.AboutToStart "k" "callback" ∧
      ∀ deadline ∈ s.lastSet "k", deadline ≤ s.now := by
  obtain ⟨s, hrun, hstart⟩ := Machine.Runs.exists_of_run (m := machine String String) (G := OnTime)
    (s := {}) (P := fun s => s.AboutToStart "k" "callback")
    [.put "k" (some "v") 10 ["callback"], .tick 5, .setTtl "k" 10, .tick 6, .wake, .test, .tick 5,
      .wake, .test, .poll, .copy 0] (by decide)
  exact ⟨s, hrun, hstart, starts_on_time hrun hstart⟩

/-- Three early starts at time 10, against a deadline of 1010: the entry is renewed between the
test and the pop, between the pop and the copy, and by the first of its two callbacks. -/
theorem stale_start :
    (∃ s, (machine String String).Reaches {} s ∧ s.AboutToStart "k" "callback" ∧ s.now = 10 ∧
      s.lastSet "k" = some 1010) ∧
    (∃ s, (machine String String).Reaches {} s ∧ s.AboutToStart "k" "callback" ∧ s.now = 10 ∧
      s.lastSet "k" = some 1010) ∧
    ∃ s, (machine String String).Reaches {} s ∧ s.AboutToStart "k" "second" ∧ s.now = 10 ∧
      s.lastSet "k" = some 1010 := by
  refine ⟨?_, ?_, ?_⟩
  · exact Machine.Reaches.exists_of_run [.put "k" (some "v") 10 ["callback"], .tick 10, .wake, .test,
      .setTtl "k" 1000, .poll, .copy 0] (by decide)
  · exact Machine.Reaches.exists_of_run [.put "k" (some "v") 10 ["callback"], .tick 10, .wake, .test,
      .poll, .setTtl "k" 1000, .copy 0] (by decide)
  · exact Machine.Reaches.exists_of_run [.put "k" (some "v") 10 ["first", "second"], .tick 10, .wake,
      .test, .poll, .copy 0, .start 0, .setTtl "k" 1000, .finish 0 true] (by decide)

end TimeoutCache

end Gwems
