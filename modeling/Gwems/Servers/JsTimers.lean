import Gwems.Util.TimeoutCache

/-!
# `window` timers: what scripts can do to the cache

`JsEnginePool.Window` gives scripts `setTimeout`, `setInterval`, `clearTimeout` and `clearInterval`.
The timers of scripts live in the `timeoutCache` of the server, with random strings as keys, next to
sessions (whose callback unsubscribes their agent: "We don't want the subscriptions to leak"),
agents and the keep-alive of the link. The functions that cancel a timer hand whatever string
they are given to `timeoutCache.remove`.

`ScriptedCache` records for each key whether a script put its entry. `cancel_spares_iff` says
exactly which strings do no harm to the others.
-/

namespace Gwems

namespace TimeoutCache

variable {V R : Type*} {s : TimeoutCache V R}

/-- The value, the deadline and the callbacks of an entry. -/
def entry (s : TimeoutCache V R) (key : String) : Option (Option V × ℤ × List R) :=
  (s.cache key).map fun holder =>
    (holder.value, (s.timedKeys holder.key).expires, (s.timedKeys holder.key).runners)

/-- `remove` takes the callbacks from the entry of its key and lets it expire. -/
theorem Owned.entry_remove (h : s.Owned) (key k : String) :
    (s.remove key).entry k =
      if k = key then (s.entry key).map fun e => (e.1, s.now - 1, []) else s.entry k := by
  cases hkey : s.cache key with
  | none =>
    rw [remove_of_none hkey]
    split
    next heq => simp [entry, heq, hkey]
    next => rfl
  | some holder =>
    rw [remove_of_some hkey]
    split
    next heq => simp [entry, heq, hkey]
    next hne =>
      cases hk : s.cache k with
      | none => simp [entry, hk]
      | some holder' => simp [entry, hk, h.holder_ne hk hkey hne]

end TimeoutCache

/-- The cache of a server, with who put the entry of each key. The code has no such record; it is
read by statements only. -/
structure ScriptedCache (V R : Type*) where
  timeoutCache : TimeoutCache V R := {}
  scripted : String → Bool := fun _ => false

namespace ScriptedCache

variable {V R X : Type*}

/-- `put` by the server or by a script. -/
def put (s : ScriptedCache V R) (byScript : Bool) (key : String) (value : Option V) (ttl : ℤ)
    (notified : List R) : ScriptedCache V R where
  timeoutCache := s.timeoutCache.put key value ttl notified
  scripted := Function.update s.scripted key byScript

/-- `window.setTimeout(funct, amt)`, with the key that `getRandom` gives; `callback` calls the
function. -/
def setTimeout (s : ScriptedCache V R) (timerId : String) (engine : V) (amt : ℤ) (callback : R) :
    ScriptedCache V R :=
  s.put true timerId (some engine) amt [callback]

/-- `window.setInterval(funct, amt)`; `callback` calls the function and then `setTtl`. -/
def setInterval (s : ScriptedCache V R) (timerId : String) (engine : V) (amt : ℤ) (callback : R) :
    ScriptedCache V R :=
  s.put true timerId (some engine) amt [callback]

/-- `timeoutCache.remove("" + timeoutVariable)`, where `text` is what a value reads as. -/
def remove (text : X → String) (s : ScriptedCache V R) (timeoutVariable : X) :
    ScriptedCache V R :=
  { s with timeoutCache := s.timeoutCache.remove (text timeoutVariable) }

/-- `window.clearTimeout(timeoutVariable)`. -/
def clearTimeout (text : X → String) (s : ScriptedCache V R) (timeoutVariable : X) :
    ScriptedCache V R :=
  s.remove text timeoutVariable

/-- `window.clearInterval(timeoutVariable)`. -/
def clearInterval (text : X → String) (s : ScriptedCache V R) (timeoutVariable : X) :
    ScriptedCache V R :=
  s.remove text timeoutVariable

/-- What can happen next: a script calls a function of `window`, the server puts an entry, or the
cache makes any other move (callers, clock, watcher and pool tasks). -/
inductive Action (V R X : Type*)
  | setTimeout (timerId : String) (engine : V) (amt : ℤ) (callback : R)
  | setInterval (timerId : String) (engine : V) (amt : ℤ) (callback : R)
  | clearTimeout (timeoutVariable : X)
  | clearInterval (timeoutVariable : X)
  | put (key : String) (value : Option V) (ttl : ℤ) (notified : List R)
  | cache (a : TimeoutCache.Action V R)

/-- A move of the cache that puts no entry. -/
def keepsEntries : TimeoutCache.Action V R → Bool
  | .put _ _ _ _ => false
  | .tick _ | .setTtl _ _ | .remove _ | .wake | .test | .poll | .copy _ | .start _ | .finish _ _
  | .close _ => true

/-- Scripts, server and cache in any order. -/
def machine (V R : Type*) (text : X → String) : Machine (ScriptedCache V R) (Action V R X) where
  step s
    | .setTimeout timerId engine amt callback => some (s.setTimeout timerId engine amt callback)
    | .setInterval timerId engine amt callback => some (s.setInterval timerId engine amt callback)
    | .clearTimeout timeoutVariable => some (s.clearTimeout text timeoutVariable)
    | .clearInterval timeoutVariable => some (s.clearInterval text timeoutVariable)
    | .put key value ttl notified => some (s.put false key value ttl notified)
    | .cache a =>
      if keepsEntries a then
        ((TimeoutCache.machine V R).step s.timeoutCache a).map fun timeoutCache =>
          { s with timeoutCache := timeoutCache }
      else none

variable {text : X → String} {s t : ScriptedCache V R}

/-- Whatever happens is a move of the cache. -/
theorem step_timeoutCache {a : Action V R X} (h : (machine V R text).step s a = some t) :
    ∃ b, (TimeoutCache.machine V R).step s.timeoutCache b = some t.timeoutCache := by
  cases a with
  | setTimeout timerId engine amt callback =>
    cases h; exact ⟨.put timerId (some engine) amt [callback], rfl⟩
  | setInterval timerId engine amt callback =>
    cases h; exact ⟨.put timerId (some engine) amt [callback], rfl⟩
  | clearTimeout timeoutVariable => cases h; exact ⟨.remove (text timeoutVariable), rfl⟩
  | clearInterval timeoutVariable => cases h; exact ⟨.remove (text timeoutVariable), rfl⟩
  | put key value ttl notified => cases h; exact ⟨.put key value ttl notified, rfl⟩
  | cache a =>
    simp only [machine] at h
    split at h
    next =>
      obtain ⟨timeoutCache, hcache, rfl⟩ := Option.map_eq_some_iff.mp h
      exact ⟨a, hcache⟩
    next => cases h

/-- Two entries never share an object. -/
theorem owned_of_reaches (h : (machine V R text).Reaches {} s) : s.timeoutCache.Owned := by
  refine h.invariant (I := fun s => s.timeoutCache.Owned) (fun hs hst => ?_)
    TimeoutCache.owned_init
  obtain ⟨b, hb⟩ := step_timeoutCache hst
  exact hs.step hb

/-- Every entry that no script has put is in `t` what it is in `s`. -/
def Spares (s t : ScriptedCache V R) : Prop :=
  ∀ key, s.scripted key = false → t.timeoutCache.entry key = s.timeoutCache.entry key

/-- The string names a timer of a script, or nothing, or an entry that is just removed anyway. -/
def Harmless (s : ScriptedCache V R) (key : String) : Prop :=
  s.scripted key = true ∨ ∀ e ∈ s.timeoutCache.entry key, e.2 = (s.timeoutCache.now - 1, [])

theorem spares_remove_iff (h : s.timeoutCache.Owned) (timeoutVariable : X) :
    s.Spares (s.remove text timeoutVariable) ↔ s.Harmless (text timeoutVariable) := by
  rw [Spares, Harmless]
  simp only [remove, h.entry_remove]
  constructor
  · intro hall
    cases hscripted : s.scripted (text timeoutVariable) with
    | true => exact .inl rfl
    | false =>
      refine .inr fun e he => ?_
      have heq := hall _ hscripted
      rw [if_pos rfl, he] at heq
      exact (congrArg Prod.snd (Option.some.inj heq)).symm
  · intro hharmless key hkey
    split
    next heq =>
      rw [heq] at hkey
      rcases hharmless with htrue | hremoved
      · rw [hkey] at htrue
        cases htrue
      · rw [heq]
        cases hentry : s.timeoutCache.entry (text timeoutVariable) with
        | none => rfl
        | some e =>
          have he := hremoved e hentry
          exact congrArg some (Prod.ext rfl he.symm)
    next => rfl

/-- **What scripts can cancel.** In every state of the cache, whatever value a script passes to
`clearTimeout` or `clearInterval`: the entries that scripts have not put keep their value, their
deadline and their callbacks exactly if the value reads as the key of none of them (or of one that
has been removed in this millisecond). -/
theorem cancel_spares_iff (h : (machine V R text).Reaches {} s) (timeoutVariable : X) :
    (s.Spares (s.clearTimeout text timeoutVariable) ↔ s.Harmless (text timeoutVariable)) ∧
      (s.Spares (s.clearInterval text timeoutVariable) ↔ s.Harmless (text timeoutVariable)) :=
  have hremove := spares_remove_iff (owned_of_reaches h) timeoutVariable
  ⟨hremove, hremove⟩

/-- A session and a timer. -/
theorem cancel_spares_iff_timer :
    let s : ScriptedCache ℕ ℕ :=
      (({} : ScriptedCache ℕ ℕ).put false "session" (some 0) 120000 [0]).setTimeout "timer" 1 5 1
    (s.Spares (s.clearTimeout id "timer") ↔ s.Harmless "timer") ∧
      (s.Spares (s.clearInterval id "timer") ↔ s.Harmless "timer") :=
  cancel_spares_iff ((Machine.Reaches.refl.tail (a := .put "session" (some 0) 120000 [0])
    rfl).tail (a := .setTimeout "timer" 1 5 1) rfl) "timer"

/-- A script that has read the key of a session in its `Ack`. -/
theorem session_cancelled :
    ¬∀ (s : ScriptedCache ℕ ℕ), (machine ℕ ℕ (id : String → String)).Reaches {} s →
      ∀ timeoutVariable : String, ∀ key, s.scripted key = false →
        (s.clearTimeout id timeoutVariable).timeoutCache.entry key = s.timeoutCache.entry key := by
  intro h
  have hcancelled := h _ (Machine.Reaches.refl.tail
    (a := .put "session" (some 0) 120000 [0]) rfl) "session" "session" rfl
  exact absurd hcancelled (by decide)

end ScriptedCache

end Gwems
