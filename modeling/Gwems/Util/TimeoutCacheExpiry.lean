import Gwems.Util.TimeoutCache

/-!
# Expired entries of a `TimeoutCache`

After the callbacks of a due entry have run, the pool task is meant to drop the entry, "only
... if it's still timed out". What it passes to `cache.invalidate` is the `TimedKey`, and the
keys of the cache are strings, so nothing is dropped: from its first `put` on, a key is present
for ever (`entry_stays`). `get` answers the value of the last `put`, and `setTtl` puts the object
with its callbacks back into `timedQ`, from where the watcher pops it again
(`exists_run_aboutToStart`). `never_absent` puts this together.
-/

namespace Gwems

namespace TimeoutCache

variable {V R : Type*} {s t : TimeoutCache V R} {key : String}

/-- The key is gone: `get` finds nothing and `setTtl` does nothing. -/
def Absent (s : TimeoutCache V R) (key : String) : Prop :=
  s.get key = none ∧ ∀ ttl, s.setTtl key ttl = s

/-- An expiry task popped for the key has completed. -/
def Expired (s : TimeoutCache V R) (key : String) : Prop :=
  s.ExistsTask key fun phase => phase = .done

instance [DecidableEq R] (s : TimeoutCache V R) (key : String) : Decidable (s.Expired key) :=
  inferInstanceAs (Decidable (s.ExistsTask key fun phase => phase = .done))

/-- Any step but a `put` of the key. -/
def NotPut (key : String) (_ : TimeoutCache V R) : Action V R → Prop
  | .put k _ _ _ => k ≠ key
  | .tick _ | .setTtl _ _ | .remove _ | .wake | .test | .poll | .copy _ | .start _ | .finish _ _
  | .close _ => True

instance (s : TimeoutCache V R) (a : Action V R) : Decidable (NotPut key s a) :=
  match a with
  | .put k _ _ _ => inferInstanceAs (Decidable (k ≠ key))
  | .tick _ | .setTtl _ _ | .remove _ | .wake | .test | .poll | .copy _ | .start _ | .finish _ _
  | .close _ => isTrue trivial

/-! ### Nothing is dropped -/

/-- Only `put` changes the entry of a key. -/
theorem cache_step {a : Action V R} (ha : NotPut key s a) (h : (machine V R).step s a = some t) :
    t.cache key = s.cache key := by
  obtain ⟨ms, rfl, rfl⟩ | ⟨k, value, ttl, notified, rfl, rfl⟩ | ⟨k, ttl, rfl, rfl⟩ | ⟨k, rfl, rfl⟩ |
    ⟨watcher, rfl⟩ | ⟨time, rfl, rfl⟩ | ⟨i, task, phase, hi, rfl, -⟩ := step_cases h
  · rfl
  · rw [put_cache]
    exact Function.update_of_ne (Ne.symm ha) ..
  · -- `setTtl` and `remove` write to the object, not to the map
    rw [setTtl_cache]
  · rw [remove_cache]
  · rfl
  · rfl
  · rfl

/-- The entry of the last `put` stays. -/
theorem entry_stays {value : Option V} {ttl : ℤ} {notified : List R}
    (h : (machine V R).Runs (NotPut key) (s.put key value ttl notified) t) :
    t.cache key = some { key := s.put_ref key, value := value } :=
  h.invariant (I := fun u => u.cache key = some { key := s.put_ref key, value := value })
    (fun ha hu hst => (cache_step ha hst).trans hu) (by rw [put_cache, Function.update_self])

/-- A present key is not absent: `setTtl` moves its deadline. -/
theorem not_absent {holder : ObjectHolder V} (hk : s.cache key = some holder) : ¬s.Absent key := by
  rintro ⟨-, hnoop⟩
  have hexpires : ∀ ttl, (s.timedKeys holder.key).expires = s.now + ttl := by
    intro ttl
    have heq : (s.setTtl key ttl).timedKeys holder.key = s.timedKeys holder.key := by
      rw [hnoop ttl]
    rw [setTtl_of_some hk] at heq
    simp only [Function.update_self] at heq
    rw [← heq]
  -- no deadline is the same for two TTLs
  have h₀ := hexpires 0
  have h₁ := hexpires 1
  omega

/-! ### A renewed key is queued again -/

/-- `setTtl` of a present key puts its object into `timedQ`, since no other object compares as
equal to it. -/
theorem mem_timedQ_setTtl (h : s.Owned) {holder : ObjectHolder V}
    (hk : s.cache key = some holder) (ttl : ℤ) : holder.key ∈ (s.setTtl key ttl).timedQ := by
  rw [setTtl]
  rw [hk]
  refine mem_timedQ_add_self fun r hr heq => ?_
  have hr : r ∈ (s.timedQ_remove holder.key).timedQ := hr
  have hne : r ≠ holder.key := by
    rintro rfl
    exact notMem_timedQ_remove _ _ hr
  have hkey := TimedKey.key_eq_of_compare heq
  simp only [write, Function.update_self, Function.update_of_ne hne] at hkey
  exact hne (h.ref_inj (h.queued r (mem_timedQ_of_mem_remove hr)) (h.cached key holder hk).1
    hkey.symm)

/-! ### The watcher gets to a queued object -/

section Watcher

variable {r : ℕ} {time : ℤ}

/-- The state after the watcher has handed a task for an object to the pool. -/
structure Popped (s t : TimeoutCache V R) (r : ℕ) : Prop where
  timedKeys : t.timedKeys = s.timedKeys
  submitted : ∃ l time, t.tasks = l ++ [{ head := some r, time := time }]

/-- A testing watcher pops a due first element. -/
theorem runs_pollFirst (hw : s.watcher = .testing time) (hfirst : s.firstIsDue time = true) :
    (machine V R).Runs (NotPut key) s (s.pollFirst time) := by
  have htest : (machine V R).step s .test = some { s with watcher := .polling time } := by
    simp [machine, hw, hfirst]
  exact .tail (a := .poll) (.tail (a := .test) .refl trivial htest) trivial rfl

theorem popped_pollFirst {q : List ℕ} (hq : s.timedQ = r :: q) : Popped s (s.pollFirst time) r :=
  ⟨rfl, s.tasks, time, by rw [pollFirst, hq]; rfl⟩

/-- A testing watcher pops one due object after another. -/
theorem exists_runs_pop_due (key : String) {q₁ q₂ : List ℕ} (hw : s.watcher = .testing time)
    (hq : s.timedQ = q₁ ++ r :: q₂) (hdue : ∀ x ∈ s.timedQ, (s.timedKeys x).expires ≤ time) :
    ∃ t, (machine V R).Runs (NotPut key) s t ∧ Popped s t r := by
  -- induction on the elements in front of the object
  induction q₁ generalizing s with
  | nil =>
    have hfirst : s.firstIsDue time = true := by
      simpa [firstIsDue, hq] using hdue r (hq ▸ List.mem_cons_self)
    exact ⟨s.pollFirst time, runs_pollFirst hw hfirst, popped_pollFirst hq⟩
  | cons x q₁ ih =>
    have hfirst : s.firstIsDue time = true := by
      simpa [firstIsDue, hq] using hdue x (hq ▸ List.mem_cons_self)
    have hq' : (s.pollFirst time).timedQ = q₁ ++ r :: q₂ := by rw [pollFirst, hq]; rfl
    have hdue' : ∀ y ∈ (s.pollFirst time).timedQ, (s.timedKeys y).expires ≤ time :=
      fun y hy => hdue y (List.mem_of_mem_tail hy)
    obtain ⟨t, hrun, hkeys, hsub⟩ := ih rfl hq' hdue'
    exact ⟨t, (runs_pollFirst hw hfirst).trans hrun, hkeys, hsub⟩

/-- A watcher in the middle of its loop goes to sleep after finitely many steps, unless it pops the
object before. -/
theorem exists_runs_sleeping (key : String) (hr : r ∈ s.timedQ) :
    ∃ t, (machine V R).Runs (NotPut key) s t ∧
      (Popped s t r ∨ t.timedKeys = s.timedKeys ∧ t.watcher = .sleeping ∧ r ∈ t.timedQ) := by
  generalize hq : s.timedQ = q at hr
  induction q generalizing s with
  | nil => cases hr
  | cons x q ih =>
    -- the claim holds once the first element is popped
    have hpop : ∀ time, (machine V R).Runs (NotPut key) s (s.pollFirst time) →
        ∃ t, (machine V R).Runs (NotPut key) s t ∧
          (Popped s t r ∨ t.timedKeys = s.timedKeys ∧ t.watcher = .sleeping ∧ r ∈ t.timedQ) := by
      intro time hrun
      rcases List.mem_cons.mp hr with rfl | hrq
      · exact ⟨_, hrun, .inl (popped_pollFirst hq)⟩
      · have hq' : (s.pollFirst time).timedQ = q := by rw [pollFirst, hq]; rfl
        obtain ⟨t, hrun', ht⟩ := ih hq' hrq
        exact ⟨t, hrun.trans hrun', ht.imp_left fun hp => ⟨hp.timedKeys, hp.submitted⟩⟩
    cases hw : s.watcher with
    | sleeping => exact ⟨s, .refl, .inr ⟨rfl, hw, hq ▸ hr⟩⟩
    | polling time =>
      have hpoll : (machine V R).step s .poll = some (s.pollFirst time) := by simp [machine, hw]
      exact hpop time (.tail (a := .poll) .refl trivial hpoll)
    | testing time =>
      by_cases hfirst : s.firstIsDue time = true
      · exact hpop time (runs_pollFirst hw hfirst)
      · have htest : (machine V R).step s .test = some { s with watcher := .sleeping } := by
          simp [machine, hw, hfirst]
        exact ⟨_, .tail (a := .test) .refl trivial htest, .inr ⟨rfl, rfl, hq ▸ hr⟩⟩

/-- Every deadline passes. -/
theorem exists_all_due (f : ℕ → ℤ) (now : ℤ) (q : List ℕ) : ∃ ms : ℕ, ∀ x ∈ q, f x ≤ now + ms := by
  induction q with
  | nil => exact ⟨0, nofun⟩
  | cons x q ih =>
    obtain ⟨ms, hms⟩ := ih
    refine ⟨ms + (f x - now).toNat, fun y hy => ?_⟩
    rcases List.mem_cons.mp hy with rfl | hy
    · omega
    · have hle := hms y hy
      omega

/-- **A queued object is popped.** If time passes and the watcher runs, every object of `timedQ`
is handed to the pool. -/
theorem exists_runs_popped (key : String) (hr : r ∈ s.timedQ) :
    ∃ t, (machine V R).Runs (NotPut key) s t ∧ Popped s t r := by
  obtain ⟨u, hsu, hpopped | ⟨hkeys, hw, hru⟩⟩ := exists_runs_sleeping key hr
  · exact ⟨u, hsu, hpopped⟩
  · -- the watcher sleeps until every deadline has passed
    obtain ⟨ms, hms⟩ := exists_all_due (fun x => (u.timedKeys x).expires) u.now u.timedQ
    obtain ⟨q₁, q₂, hq⟩ := List.append_of_mem hru
    have hwake : (machine V R).step { u with now := u.now + ms } .wake =
        some { u with now := u.now + ms, watcher := .testing (u.now + ms) } := by
      simp [machine, hw]
    have hrun : (machine V R).Runs (NotPut key) u
        { u with now := u.now + ms, watcher := .testing (u.now + ms) } :=
      .tail (a := .wake) (.tail (a := .tick ms) .refl trivial rfl) trivial hwake
    obtain ⟨t, hut, hpopped⟩ := exists_runs_pop_due key
      (s := { u with now := u.now + ms, watcher := .testing (u.now + ms) }) rfl hq hms
    exact ⟨t, (hsu.trans hrun).trans hut, hpopped.timedKeys.trans hkeys, hpopped.submitted⟩

/-- The task of a popped object gets to its first callback. -/
theorem exists_runs_aboutToStart {callback : R} {todo : List R} (hpopped : Popped s t r)
    (hrunners : (s.timedKeys r).runners = callback :: todo) (hkey : (s.timedKeys r).key = key) :
    ∃ u, (machine V R).Runs (NotPut key) t u ∧ u.AboutToStart key callback := by
  obtain ⟨hkeys, l, time, htasks⟩ := hpopped
  have hi : t.tasks[l.length]? = some { head := some r, time := time } := by simp [htasks]
  have hcopy : (machine V R).step t (.copy l.length) = some (t.setPhase l.length
      { head := some r, time := time } (.running none (callback :: todo))) := by
    simp only [machine, hi, copied, hkeys, hrunners]
  refine ⟨_, .tail (a := .copy l.length) .refl trivial hcopy,
    { head := some r, time := time, phase := .running none (callback :: todo) }, ?_, rfl, ?_⟩
  · exact List.mem_iff_getElem?.mpr ⟨l.length, List.getElem?_set_self (by simp [htasks])⟩
  · simp [setPhase, hkeys, hkey]

end Watcher

/-! ### No key is ever absent -/

/-- A present key can be renewed: its callbacks stay with it, its object is queued with the new
deadline, and in some run they start again. -/
theorem exists_runs_setTtl (h : s.Owned) {holder : ObjectHolder V}
    (hk : s.cache key = some holder) (ttl : ℤ) {callback : R} {todo : List R}
    (hrunners : (s.timedKeys holder.key).runners = callback :: todo) :
    ∃ t, (machine V R).Runs (NotPut key) (s.setTtl key ttl) t ∧ t.AboutToStart key callback := by
  obtain ⟨t, hst, hpopped⟩ := exists_runs_popped key (mem_timedQ_setTtl h hk ttl)
  have hobject : (s.setTtl key ttl).timedKeys holder.key =
      { s.timedKeys holder.key with expires := s.now + ttl } := by
    rw [setTtl_of_some hk]
    exact Function.update_self ..
  have hkey : ((s.setTtl key ttl).timedKeys holder.key).key = key := by
    rw [hobject]
    exact (h.cached key holder hk).2
  have hrunners' : ((s.setTtl key ttl).timedKeys holder.key).runners = callback :: todo := by
    rw [hobject]
    exact hrunners
  obtain ⟨u, htu, hu⟩ := exists_runs_aboutToStart hpopped hrunners' hkey
  exact ⟨u, hst.trans htu, hu⟩

/-- **An expired key is never absent.** After a `put`, in every state that is reached without
another `put` of the key, whatever expired and whether or not it was removed or renewed:
`get` answers the value of that `put`, the key is not absent, and if its object still has
callbacks, every `setTtl` makes them start again in some run. -/
theorem never_absent {s₀ : TimeoutCache V R} (h₀ : (machine V R).Reaches {} s₀)
    {value : Option V} {ttl : ℤ} {notified : List R}
    (h : (machine V R).Runs (NotPut key) (s₀.put key value ttl notified) s) :
    s.get key = value ∧ ¬s.Absent key ∧
      ∃ r, (s.timedKeys r).key = key ∧ ∀ callback todo,
        (s.timedKeys r).runners = callback :: todo → ∀ ttl', ∃ t,
          (machine V R).Runs (NotPut key) (s.setTtl key ttl') t ∧ t.AboutToStart key callback := by
  have hcache := entry_stays h
  have hreaches : (machine V R).Reaches {} (s₀.put key value ttl notified) :=
    h₀.tail (a := .put key value ttl notified) rfl
  have howned : s.Owned := owned_of_reaches (Machine.Runs.trans hreaches h.reaches)
  refine ⟨by rw [get, hcache], not_absent hcache, s₀.put_ref key, (howned.cached key _ hcache).2,
    fun callback todo hrunners ttl' => exists_runs_setTtl howned hcache ttl' hrunners⟩

/-- A key that expired, with its value and its callback still there. -/
theorem never_absent_expired :
    ∃ s, (machine String String).Runs (NotPut "k") (put {} "k" (some "v") 1 ["callback"]) s ∧
      s.Expired "k" ∧ s.get "k" = some "v" ∧ ¬s.Absent "k" := by
  obtain ⟨s, hrun, hexpired⟩ := Machine.Runs.exists_of_run (m := machine String String)
    (G := NotPut "k") (s := put {} "k" (some "v") 1 ["callback"]) (P := fun s => s.Expired "k")
    [.tick 2, .wake, .test, .poll, .copy 0, .start 0, .finish 0 true, .close 0] (by decide)
  obtain ⟨hget, habsent, -⟩ := never_absent .refl hrun
  exact ⟨s, hrun, hexpired, hget, habsent⟩

/-- A due entry whose callback has run and whose task has completed, untouched by anybody: `get`
finds it, and after a `setTtl` the callback is about to start again. -/
theorem expired_key_present :
    ∃ s, (machine String String).Reaches {} s ∧
      (s.Expired "k" ∧ s.lastSet "k" = some 1 ∧ s.now = 2 ∧ s.get "k" = some "v") ∧
      ∃ t, (machine String String).Reaches (s.setTtl "k" 1) t ∧ t.AboutToStart "k" "callback" := by
  obtain ⟨s, hs, hexpired, hagain⟩ := Machine.Reaches.exists_of_run (m := machine String String)
    (s := {})
    (P := fun s => (s.Expired "k" ∧ s.lastSet "k" = some 1 ∧ s.now = 2 ∧ s.get "k" = some "v") ∧
      ((machine String String).run (s.setTtl "k" 1)
        [.test, .tick 2, .wake, .test, .poll, .copy 1]).any (·.AboutToStart "k" "callback"))
    [.put "k" (some "v") 1 ["callback"], .tick 2, .wake, .test, .poll, .copy 0, .start 0,
      .finish 0 true, .close 0] (by decide)
  exact ⟨s, hs, hexpired, Machine.Reaches.exists_of_run _ hagain⟩

end TimeoutCache

end Gwems
