import Gwems.Servers.JsTimers
import Gwems.Util.TimeoutCacheOnce

/-!
# `setTimeout`: the function is called once

`window.setTimeout` puts an entry with one callback into the `timeoutCache`, under a random string
that nothing else puts, and whose deadline nothing moves (`setTtl` is for sessions and intervals).

However scripts, server, watcher and pool go on, the function is called at most once. If no value
is passed to `clearTimeout` or `clearInterval` that reads as the string, it has been called exactly
once whenever the cache is idle after the deadline (`setTimeout_once`). Whether the cache becomes
idle is another question: the watcher looks at the queue without synchronization.
-/

namespace Gwems

namespace ScriptedCache

variable {V R X : Type*} {text : X → String} {s t u : ScriptedCache V R} {timerId : String}
  {engine : V} {amt : ℤ} {callback : R} {as : List (Action V R X)}

/-- What an action does to the cache. -/
def cacheAction (text : X → String) : Action V R X → TimeoutCache.Action V R
  | .setTimeout timerId engine amt callback => .put timerId (some engine) amt [callback]
  | .setInterval timerId engine amt callback => .put timerId (some engine) amt [callback]
  | .clearTimeout timeoutVariable => .remove (text timeoutVariable)
  | .clearInterval timeoutVariable => .remove (text timeoutVariable)
  | .put key value ttl notified => .put key value ttl notified
  | .cache a => a

/-- The callbacks of a timer that a schedule starts. -/
def calls (text : X → String) (timerId : String) (s : ScriptedCache V R)
    (as : List (Action V R X)) : List R :=
  TimeoutCache.startedOf timerId s.timeoutCache (as.map (cacheAction text))

/-- Nothing else puts the string or moves its deadline. -/
def Unshared (text : X → String) (timerId : String) (s : ScriptedCache V R) (a : Action V R X) :
    Prop :=
  TimeoutCache.LeftAlone timerId s.timeoutCache (cacheAction text a)

/-- No value that reads as the string is passed to `clearTimeout` or `clearInterval`, and the server
does not remove it either. -/
def Uncancelled (text : X → String) (timerId : String) (s : ScriptedCache V R) (a : Action V R X) :
    Prop :=
  TimeoutCache.NotRemoved timerId s.timeoutCache (cacheAction text a)

instance (text : X → String) (timerId : String) (s : ScriptedCache V R) (a : Action V R X) :
    Decidable (Unshared text timerId s a) :=
  inferInstanceAs (Decidable (TimeoutCache.LeftAlone timerId s.timeoutCache (cacheAction text a)))

instance (text : X → String) (timerId : String) (s : ScriptedCache V R) (a : Action V R X) :
    Decidable (Uncancelled text timerId s a) :=
  inferInstanceAs (Decidable (TimeoutCache.NotRemoved timerId s.timeoutCache (cacheAction text a)))

theorem step_cacheAction {a : Action V R X} (h : (machine V R text).step s a = some t) :
    (TimeoutCache.machine V R).step s.timeoutCache (cacheAction text a) = some t.timeoutCache := by
  cases a with
  | setTimeout timerId engine amt callback => cases h; rfl
  | setInterval timerId engine amt callback => cases h; rfl
  | clearTimeout timeoutVariable => cases h; rfl
  | clearInterval timeoutVariable => cases h; rfl
  | put key value ttl notified => cases h; rfl
  | cache a =>
    simp only [machine] at h
    split at h
    next =>
      obtain ⟨timeoutCache, hcache, rfl⟩ := Option.map_eq_some_iff.mp h
      exact hcache
    next => cases h

/-- A schedule of scripts and server is one of the cache. -/
theorem run_cacheAction (h : (machine V R text).run s as = some u) :
    (TimeoutCache.machine V R).run s.timeoutCache (as.map (cacheAction text)) =
      some u.timeoutCache := by
  induction as generalizing s with
  | nil =>
    rw [Machine.run_nil, Option.some.injEq] at h
    rw [h]
    rfl
  | cons a as ih =>
    obtain ⟨t, hst, hrun⟩ := Machine.run_cons_eq_some.mp h
    rw [List.map_cons, Machine.run_cons_of_step (step_cacheAction hst)]
    exact ih hrun

theorem along_cacheAction {G : TimeoutCache V R → TimeoutCache.Action V R → Prop}
    (has : (machine V R text).Along (fun s a => G s.timeoutCache (cacheAction text a)) s as)
    (h : (machine V R text).run s as = some u) :
    (TimeoutCache.machine V R).Along G s.timeoutCache (as.map (cacheAction text)) := by
  induction as generalizing s with
  | nil => trivial
  | cons a as ih =>
    obtain ⟨t, hst, hrun⟩ := Machine.run_cons_eq_some.mp h
    obtain ⟨ha, has⟩ := (Machine.along_cons_of_step hst as).mp has
    exact (Machine.along_cons_of_step (step_cacheAction hst) _).mpr ⟨ha, ih has hrun⟩

theorem reaches_timeoutCache (h : (machine V R text).Reaches {} s) :
    (TimeoutCache.machine V R).Reaches {} s.timeoutCache :=
  h.invariant (I := fun s => (TimeoutCache.machine V R).Reaches {} s.timeoutCache)
    (fun hs hst => hs.tail (step_cacheAction hst)) .refl

/-- **The function is called once.** Whatever scripts, server, watcher and pool do after a
`setTimeout` under a string that was not in the cache and is nobody else's, in whatever order: the
function is called at most once, and if nobody cancels the timer, exactly once by the time that the
cache is idle after the deadline. -/
theorem setTimeout_once (h : (machine V R text).Reaches {} s)
    (hnew : s.timeoutCache.cache timerId = none)
    (has : (machine V R text).Along (Unshared text timerId)
      (s.setTimeout timerId engine amt callback) as)
    (hrun : (machine V R text).run (s.setTimeout timerId engine amt callback) as = some u) :
    (calls text timerId (s.setTimeout timerId engine amt callback) as = [] ∨
      calls text timerId (s.setTimeout timerId engine amt callback) as = [callback]) ∧
    ((machine V R text).Along (Uncancelled text timerId)
        (s.setTimeout timerId engine amt callback) as →
      s.timeoutCache.now + amt ≤ u.timeoutCache.now → u.timeoutCache.Idle →
      calls text timerId (s.setTimeout timerId engine amt callback) as = [callback]) := by
  have honce := TimeoutCache.put_once (reaches_timeoutCache h) hnew
    (along_cacheAction (G := TimeoutCache.LeftAlone timerId) has hrun) (run_cacheAction hrun)
  refine ⟨honce.1, fun huncancelled hdue hidle => ?_⟩
  exact honce.2 (along_cacheAction (G := TimeoutCache.NotRemoved timerId) huncancelled hrun) hdue
    hidle

/-- A timer of five milliseconds, while a script makes another one and cancels that: the watcher
pops them both, and the pool runs their tasks. -/
theorem setTimeout_once_timer :
    let s := ({} : ScriptedCache ℕ ℕ).setTimeout "timer" 1 5 7
    let as : List (Action ℕ ℕ String) := [.setTimeout "other" 1 3 8, .cache (.tick 5),
      .clearTimeout "other", .cache .wake, .cache .test, .cache .poll, .cache .test, .cache .poll,
      .cache .test, .cache (.copy 1), .cache (.copy 0), .cache (.start 1), .cache (.close 0),
      .cache (.finish 1 true), .cache (.close 1)]
    ∃ u, (machine ℕ ℕ id).run s as = some u ∧ u.timeoutCache.Idle ∧
      calls id "timer" s as = [7] := by
  intro s as
  have hunshared : (machine ℕ ℕ id).Along (Unshared id "timer") s as := by decide
  have huncancelled : (machine ℕ ℕ id).Along (Uncancelled id "timer") s as := by decide
  have hsome : ((machine ℕ ℕ id).run s as).any fun u =>
      u.timeoutCache.Idle ∧ 5 ≤ u.timeoutCache.now := by decide
  obtain ⟨u, hrun, hlast⟩ := (Option.any_eq_true _ _).mp hsome
  obtain ⟨hidle, hdue⟩ := of_decide_eq_true hlast
  have honce := setTimeout_once (.refl : (machine ℕ ℕ id).Reaches {} {}) rfl hunshared hrun
  exact ⟨u, hrun, hidle, honce.2 huncancelled hdue hidle⟩

end ScriptedCache

end Gwems
