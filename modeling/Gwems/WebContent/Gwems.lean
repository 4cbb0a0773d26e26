import Gwems.Library.Keyed
import Gwems.Servers.Session

/-!
# `GWEMS.js`: channel sets of a client

A page keeps the channels it wants as a JavaScript object "where key = value", and
`GWEMS.subscribeChanges(before, after)` sends a `Subscribe` for every name that is new and then
an `Unsubscribe` for every name that is gone. The differences are taken of the names as the
client spells them; the server ignores short names and trims the rest (`SocketMessage.call`), so
two names of the client can denote one channel.

`channels_subscribeChanges_iff` says exactly when the server ends up with the channels of `after`:
no name that is gone denotes a channel that stays, and `__proto__`, which a plain assignment does
not make a property, does not come or go. `removed_alias_unsubscribes` is the smallest case where
it does not.
-/

namespace Gwems

/-! ### Objects as sets -/

namespace JsObject

/-- The array index that a property name spells, in the one form that counts as one. -/
def arrayIndex? (key : String) : Option ℕ :=
  let digits := key.toList
  if digits ≠ [] ∧ digits.all Char.isDigit ∧ (digits.head? = some '0' → digits.length = 1) then
    let n := digits.foldl (fun n d => 10 * n + (d.toNat - '0'.toNat)) 0
    if n < 2 ^ 32 - 1 then some n else none
  else none

/-- The place of a new property: array indices first, in ascending order, then the others as they
are created. -/
def before (x y : String) : Bool :=
  match arrayIndex? x, arrayIndex? y with
  | some m, some n => m ≤ n
  | some _, none => true
  | none, _ => false

/-- Property names are told apart by equality. -/
def names : Keying String := { Keying.byEquals with before := before }

theorem strict_names : names.Strict := Keying.strict_byEquals

theorem names_same {x y : String} : names.same x y = true ↔ x = y := Keying.byEquals_same

end JsObject

/-- A plain object whose properties are strings or `null`: its entries in the order of a
`for (key in ..)` loop. -/
abbrev JsObject := KMap JsObject.names (Option String)

namespace JsObject

variable {o : JsObject} {key k : String} {value : Option String}

/-- `o[key] = value`. Where `__proto__` is not a property yet, the assignment goes to the setter
that every object inherits, which makes no property. -/
def assign (o : JsObject) (key : String) (value : Option String) : JsObject :=
  if key = "__proto__" ∧ (o.get? key).isNone then o else o.put key value

/-- Whether `o[key]` counts as true. -/
def truthy (o : JsObject) (key : String) : Bool :=
  match o.get? key with
  | some (some value) => value ≠ ""
  | some none | none => false

theorem get?_assign (hkey : key ≠ "__proto__" ∨ (o.get? key).isSome = true) :
    (o.assign key value).get? k = if k = key then some value else o.get? k := by
  have hput : o.assign key value = o.put key value := by
    refine if_neg fun h => ?_
    rcases hkey with hne | hsome
    · exact hne h.1
    · simp [Option.isNone_iff_eq_none.mp h.2] at hsome
  rw [hput, KMap.get?_put]
  simp only [names_same]

theorem assign_proto (h : o.get? "__proto__" = none) : o.assign "__proto__" value = o := by
  simp [assign, h]

theorem mem_keys : k ∈ o.keys ↔ (o.get? k).isSome = true := KMap.mem_keys_iff strict_names

/-- Assigning to names makes them properties. -/
theorem mem_keys_foldl_assign (f : String → Option String) {l : List String}
    (hl : "__proto__" ∉ l) (o : JsObject) :
    k ∈ (l.foldl (fun o key => o.assign key (f key)) o).keys ↔ k ∈ o.keys ∨ k ∈ l := by
  induction l generalizing o with
  | nil => simp
  | cons key l ih =>
    obtain ⟨hkey, hl⟩ := not_or.mp (List.mem_cons.not.mp hl)
    rw [List.foldl_cons, ih hl, mem_keys, get?_assign (.inl (Ne.symm hkey)), mem_keys,
      List.mem_cons]
    by_cases hk : k = key
    · simp [hk]
    · simp [hk]

end JsObject

/-- "An object where key = value. eg. { key:key }." -/
structure ChannelNames where
  object : JsObject
  value_eq : ∀ key value, object.get? key = some value → value = some key

instance : Membership String ChannelNames := ⟨fun s key => key ∈ s.object.keys⟩

namespace GWEMS

open JsObject

variable {k : String}

/-- `GWEMS.addedToSet(before, after)`: "Subtract the before Set from the after Set". The copy that
is made with `JSON` has the properties of `after`. -/
def addedToSet (before after : JsObject) : JsObject :=
  let res := before.keys.foldl (fun res key => res.assign key none) after
  res.keys.foldl (fun res2 key => if res.truthy key then res2.assign key (some key) else res2) ∅

/-- `GWEMS.removedFromSet(before, after)`. -/
def removedFromSet (before after : JsObject) : JsObject := addedToSet after before

/-- The messages of `GWEMS.subscribe(aMap, gwemsSocket)`. -/
def subscribe (aMap : JsObject) : List SocketMessage := aMap.keys.map .subscribe

/-- The messages of `GWEMS.unsubscribe(aMap, gwemsSocket)`. -/
def unsubscribe (aMap : JsObject) : List SocketMessage := aMap.keys.map .unsubscribe

/-- The messages of `GWEMS.subscribeChanges(before, after, gwemsSocket)`. -/
def subscribeChanges (before after : JsObject) : List SocketMessage :=
  let added := addedToSet before after
  let removed := removedFromSet before after
  (if added.keys.length ≠ 0 then subscribe added else []) ++
    (if removed.keys.length ≠ 0 then unsubscribe removed else [])

/-- Setting names to `null` changes the names that are there, and makes properties that do not
count as true. -/
theorem truthy_foldl_assign_none (l : List String) (o : JsObject) :
    (l.foldl (fun res key => res.assign key none) o).truthy k = true ↔
      o.truthy k = true ∧ k ∉ l := by
  induction l generalizing o with
  | nil => simp
  | cons key l ih =>
    have hassign : (o.assign key none).truthy k = true ↔ o.truthy k = true ∧ k ≠ key := by
      by_cases hkey : key ≠ "__proto__" ∨ (o.get? key).isSome = true
      · unfold truthy
        rw [get?_assign hkey]
        by_cases hk : k = key <;> simp [hk]
      · obtain ⟨rfl, hnone⟩ : key = "__proto__" ∧ o.get? key = none := by simpa using hkey
        rw [assign_proto hnone, iff_self_and]
        rintro h rfl
        simp [truthy, hnone] at h
    rw [List.foldl_cons, ih, hassign, List.mem_cons, not_or, and_assoc]

theorem mem_keys_of_truthy {o : JsObject} (h : o.truthy k = true) : k ∈ o.keys := by
  rw [mem_keys]
  rw [truthy] at h
  split at h
  next hget => rw [hget]; rfl
  next => cases h
  next => cases h

/-- The second loop collects the names that satisfy a test, less `__proto__`. -/
theorem mem_keys_collect (p : String → Bool) (l : List String) (o : JsObject)
    (ho : o.get? "__proto__" = none) :
    k ∈ (l.foldl (fun res2 key => if p key then res2.assign key (some key) else res2) o).keys ↔
      k ∈ o.keys ∨ k ∈ l ∧ p k = true ∧ k ≠ "__proto__" := by
  induction l generalizing o with
  | nil => simp
  | cons key l ih =>
    rw [List.foldl_cons]
    by_cases hadd : p key = true ∧ key ≠ "__proto__"
    · have hassign : ∀ k, (o.assign key (some key)).get? k =
          if k = key then some (some key) else o.get? k := fun k => get?_assign (.inl hadd.2)
      rw [if_pos hadd.1, ih _ (by rw [hassign, if_neg (Ne.symm hadd.2), ho]), mem_keys, hassign,
        mem_keys]
      by_cases hk : k = key
      · simp [hk, hadd]
      · simp [hk]
    · have hskip : (if p key then o.assign key (some key) else o) = o := by
        split
        next hp =>
          obtain rfl : key = "__proto__" := by simpa [hp] using hadd
          exact assign_proto ho
        next => rfl
      rw [hskip, ih o ho, List.mem_cons]
      refine or_congr_right (and_congr_left fun hk => (or_iff_right ?_).symm)
      rintro rfl
      exact hadd hk

/-- **What `addedToSet` computes** of two sets: the difference of the names, less the empty name and
`__proto__`. -/
theorem mem_addedToSet (before after : ChannelNames) :
    k ∈ (addedToSet before.object after.object).keys ↔
      k ∈ after ∧ k ∉ before ∧ k ≠ "" ∧ k ≠ "__proto__" := by
  have htruthy : after.object.truthy k = true ↔ k ∈ after ∧ k ≠ "" := by
    refine ⟨fun h => ?_, fun ⟨hmem, hne⟩ => ?_⟩
    · refine ⟨mem_keys_of_truthy h, ?_⟩
      rintro rfl
      rw [truthy] at h
      split at h
      next hget => simp [Option.some_inj.mp (after.value_eq _ _ hget)] at h
      next => cases h
      next => cases h
    · obtain ⟨value, hget⟩ := Option.isSome_iff_exists.mp (mem_keys.mp hmem)
      obtain rfl := after.value_eq _ _ hget
      simp [truthy, hget, hne]
  rw [addedToSet, mem_keys_collect _ _ _ KMap.get?_empty]
  have hempty : k ∉ (∅ : JsObject).keys := by simp [mem_keys]
  rw [or_iff_right hempty, truthy_foldl_assign_none, htruthy]
  constructor
  · rintro ⟨-, ⟨⟨hafter, hne⟩, hbefore⟩, hproto⟩
    exact ⟨hafter, hbefore, hne, hproto⟩
  · rintro ⟨hafter, hbefore, hne, hproto⟩
    have hall := (truthy_foldl_assign_none before.object.keys after.object).mpr
      ⟨htruthy.mpr ⟨hafter, hne⟩, hbefore⟩
    exact ⟨mem_keys_of_truthy hall, ⟨⟨hafter, hne⟩, hbefore⟩, hproto⟩

/-! ### The server -/

/-- Run a message of the session of `agent` on its server. -/
def run {M : Type*} (agent : Agent) (g : Global M) (message : SocketMessage) : Global M :=
  (message.call agent).elim g g.perform

/-- Run the messages of a session in the order in which they were sent. -/
def runAll {M : Type*} (agent : Agent) (g : Global M) (messages : List SocketMessage) : Global M :=
  messages.foldl (run agent) g

/-- The channel that a `Subscribe` or `Unsubscribe` with this name is about, if the server does not
ignore it. -/
def Denotes (name channel : String) : Prop :=
  4 ≤ javaLength name ∧ name ≠ "none" ∧ javaTrim name = channel

instance (name channel : String) : Decidable (Denotes name channel) :=
  inferInstanceAs (Decidable (_ ∧ _ ∧ _))

/-- The channels of a session that has `base` and subscribes to all the names of a set. -/
def wanted (base : Set String) (names : ChannelNames) : Set String :=
  {c | c ∈ base ∨ c.length ≠ 0 ∧ ∃ name ∈ names, Denotes name c}

section Server

variable {M : Type*} {g : Global M} {agent : Agent} {name c : String}

theorem mem_channels_run_subscribe :
    c ∈ (run agent g (.subscribe name)).channels agent ↔
      c ∈ g.channels agent ∨ c.length ≠ 0 ∧ Denotes name c := by
  by_cases hname : 4 ≤ javaLength name ∧ name ≠ "none"
  · rw [run, SocketMessage.call, if_pos hname, Option.elim_some, Global.perform]
    by_cases hc : (javaTrim name).length = 0
    · rw [Global.subscribe_of_length_eq_zero hc]
      refine (or_iff_left ?_).symm
      rintro ⟨hne, -, -, rfl⟩
      exact hne hc
    · rw [Global.mem_channels, Global.mem_channels, Global.subscribe_session2channel hc,
        SessionMap.mem_things_add]
      refine or_congr_right ⟨?_, ?_⟩
      · rintro ⟨-, rfl⟩
        exact ⟨hc, hname.1, hname.2, rfl⟩
      · rintro ⟨-, -, -, htrim⟩
        exact ⟨rfl, htrim.symm⟩
  · rw [run, SocketMessage.call, if_neg hname, Option.elim_none]
    refine (or_iff_left ?_).symm
    rintro ⟨-, hlength, hnone, -⟩
    exact hname ⟨hlength, hnone⟩

theorem mem_channels_run_unsubscribe :
    c ∈ (run agent g (.unsubscribe name)).channels agent ↔
      c ∈ g.channels agent ∧ ¬ Denotes name c := by
  by_cases hname : 4 ≤ javaLength name ∧ name ≠ "none"
  · rw [run, SocketMessage.call, if_pos hname, Option.elim_some, Global.perform,
      Global.mem_channels, Global.mem_channels, Global.unsubscribe_session2channel,
      SessionMap.mem_things_remove]
    refine and_congr_right fun _ => not_congr ⟨?_, ?_⟩
    · rintro ⟨-, rfl⟩
      exact ⟨hname.1, hname.2, rfl⟩
    · rintro ⟨-, -, htrim⟩
      exact ⟨rfl, htrim.symm⟩
  · rw [run, SocketMessage.call, if_neg hname, Option.elim_none]
    refine (and_iff_left ?_).symm
    rintro ⟨hlength, hnone, -⟩
    exact hname ⟨hlength, hnone⟩

/-- The run lemmas: a list of names subscribed, or unsubscribed. -/
theorem mem_channels_runAll_subscribe (names : List String) (g : Global M) :
    c ∈ (runAll agent g (names.map .subscribe)).channels agent ↔
      c ∈ g.channels agent ∨ c.length ≠ 0 ∧ ∃ name ∈ names, Denotes name c := by
  induction names generalizing g with
  | nil => simp [runAll]
  | cons name names ih =>
    rw [runAll, List.map_cons, List.foldl_cons, ← runAll, ih, mem_channels_run_subscribe]
    simp only [List.exists_mem_cons_iff]
    tauto

theorem mem_channels_runAll_unsubscribe (names : List String) (g : Global M) :
    c ∈ (runAll agent g (names.map .unsubscribe)).channels agent ↔
      c ∈ g.channels agent ∧ ¬ ∃ name ∈ names, Denotes name c := by
  induction names generalizing g with
  | nil => simp [runAll]
  | cons name names ih =>
    rw [runAll, List.map_cons, List.foldl_cons, ← runAll, ih, mem_channels_run_unsubscribe]
    simp only [List.exists_mem_cons_iff, not_or, and_assoc]

/-- The two tests for an empty set leave out nothing. -/
theorem subscribeChanges_eq (before after : JsObject) :
    subscribeChanges before after =
      subscribe (addedToSet before after) ++ unsubscribe (removedFromSet before after) := by
  have hskip : ∀ (o : JsObject) (f : String → SocketMessage),
      (if o.keys.length ≠ 0 then o.keys.map f else []) = o.keys.map f := by
    intro o f
    split
    next => rfl
    next h => simp [List.length_eq_zero_iff.mp (not_not.mp h)]
  simp only [subscribeChanges, subscribe, unsubscribe, hskip]

/-- What a session has after it sent `Subscribe` for every name of a set. -/
theorem mem_channels_subscribe (g : Global M) (names : ChannelNames) :
    c ∈ (runAll agent g (subscribe names.object)).channels agent ↔
      c ∈ wanted {d | d ∈ g.channels agent} names :=
  mem_channels_runAll_subscribe _ _

/-- What a session has after the changes: the new names are added, then the gone names removed. -/
theorem mem_channels_subscribeChanges (g : Global M) (before after : ChannelNames) :
    c ∈ (runAll agent g (subscribeChanges before.object after.object)).channels agent ↔
      (c ∈ g.channels agent ∨ c.length ≠ 0 ∧
        ∃ name ∈ (addedToSet before.object after.object).keys, Denotes name c) ∧
      ¬ ∃ name ∈ (removedFromSet before.object after.object).keys, Denotes name c := by
  rw [subscribeChanges_eq, runAll, List.foldl_append, ← runAll, ← runAll, unsubscribe,
    mem_channels_runAll_unsubscribe, subscribe, mem_channels_runAll_subscribe]

end Server

/-! ### The wanted set -/

/-- When the changes take a session that has `base` and the channels of `before` to those of
`after`: a name that is gone denotes no channel that stays, and `__proto__` makes no
difference. -/
structure Separable (base : Set String) (before after : ChannelNames) : Prop where
  gone : ∀ name ∈ before, name ∉ after → name ≠ "__proto__" →
    ∀ c, Denotes name c → c ∉ wanted base after
  proto_new : "__proto__" ∈ after → "__proto__" ∈ before ∨ "__proto__" ∈ base ∨
    ∃ name ∈ after, name ≠ "__proto__" ∧ Denotes name "__proto__"
  proto_gone : "__proto__" ∈ before → "__proto__" ∈ wanted base after ∨
    ∃ name ∈ before, name ∉ after ∧ name ≠ "__proto__" ∧ Denotes name "__proto__"

/-- The name `__proto__` is long enough, and denotes the channel of that name. -/
theorem denotes_proto : Denotes "__proto__" "__proto__" := by decide

theorem eq_proto_of_denotes {c : String} (h : Denotes "__proto__" c) : c = "__proto__" :=
  h.2.2.symm.trans denotes_proto.2.2

/-- A name that is not ignored is added when it is new, and removed when it is gone, except for
`__proto__`. -/
theorem mem_addedToSet_of_denotes {before after : ChannelNames} {name c : String}
    (h : Denotes name c) (hafter : name ∈ after) (hbefore : name ∉ before)
    (hproto : name ≠ "__proto__") : name ∈ (addedToSet before.object after.object).keys := by
  refine (mem_addedToSet before after).mpr ⟨hafter, hbefore, ?_, hproto⟩
  rintro rfl
  exact absurd h.1 (by decide)

section Reached

variable {M : Type*} {g : Global M} {agent : Agent} {before after : ChannelNames}

/-- Where the names are separable, the session ends up with the wanted channels. -/
theorem Separable.channels (h : Separable {c | c ∈ g.channels agent} before after) (c : String) :
    c ∈ (runAll agent (runAll agent g (subscribe before.object))
        (subscribeChanges before.object after.object)).channels agent ↔
      c ∈ wanted {c | c ∈ g.channels agent} after := by
  rw [mem_channels_subscribeChanges, mem_channels_subscribe]
  constructor
  · rintro ⟨(hbase | ⟨hc, name, hname, hdenotes⟩) | ⟨hc, name, hname, hdenotes⟩, hgone⟩
    · exact .inl hbase
    · by_cases hafter : name ∈ after
      · exact .inr ⟨hc, name, hafter, hdenotes⟩
      by_cases hproto : name = "__proto__"
      · subst hproto
        obtain rfl := eq_proto_of_denotes hdenotes
        rcases h.proto_gone hname with hwanted | ⟨n, hn, hna, hnp, hd⟩
        · exact hwanted
        · exact absurd ⟨n, mem_addedToSet_of_denotes hd hn hna hnp, hd⟩ hgone
      · exact absurd
          ⟨name, mem_addedToSet_of_denotes hdenotes hname hafter hproto, hdenotes⟩ hgone
    · exact .inr ⟨hc, name, ((mem_addedToSet _ _).mp hname).1, hdenotes⟩
  · intro hwanted
    refine ⟨?_, ?_⟩
    · -- a name of `after` was there before, or is added
      have hcovered : ∀ name ∈ after, name ≠ "__proto__" ∨ name ∈ before → c.length ≠ 0 →
          Denotes name c → (c ∈ wanted {c | c ∈ g.channels agent} before) ∨ c.length ≠ 0 ∧
            ∃ name ∈ (addedToSet before.object after.object).keys, Denotes name c := by
        intro name hname hor hc hdenotes
        by_cases hbefore : name ∈ before
        · exact .inl (.inr ⟨hc, name, hbefore, hdenotes⟩)
        · exact .inr ⟨hc, name, mem_addedToSet_of_denotes hdenotes hname hbefore
            (hor.resolve_right hbefore), hdenotes⟩
      rcases hwanted with hbase | ⟨hc, name, hname, hdenotes⟩
      · exact .inl (.inl hbase)
      by_cases hproto : name = "__proto__"
      · subst hproto
        obtain rfl := eq_proto_of_denotes hdenotes
        rcases h.proto_new hname with hbefore | hbase | ⟨n, hn, hnp, hd⟩
        · exact hcovered _ hname (.inr hbefore) hc hdenotes
        · exact .inl (.inl hbase)
        · exact hcovered n hn (.inl hnp) hc hd
      · exact hcovered name hname (.inl hproto) hc hdenotes
    · rintro ⟨name, hname, hdenotes⟩
      obtain ⟨hbefore, hafter, -, hproto⟩ := (mem_addedToSet after before).mp hname
      exact h.gone name hbefore hafter hproto c hdenotes hwanted

/-- Where the session ends up with the wanted channels, the names are separable. -/
theorem separable_of_channels (h : ∀ c, c ∈ (runAll agent (runAll agent g (subscribe before.object))
        (subscribeChanges before.object after.object)).channels agent ↔
      c ∈ wanted {c | c ∈ g.channels agent} after) :
    Separable {c | c ∈ g.channels agent} before after := by
  simp only [mem_channels_subscribeChanges, mem_channels_subscribe] at h
  refine ⟨?_, ?_, ?_⟩
  · intro name hname hafter hproto c hdenotes hwanted
    exact ((h c).mpr hwanted).2
      ⟨name, mem_addedToSet_of_denotes hdenotes hname hafter hproto, hdenotes⟩
  · intro hafter
    have hreached := (h "__proto__").mpr (.inr ⟨by decide, _, hafter, denotes_proto⟩)
    rcases hreached with ⟨(hbase | ⟨-, name, hname, hdenotes⟩) | ⟨-, name, hname, hdenotes⟩, hgone⟩
    · exact .inr (.inl hbase)
    · by_cases hproto : name = "__proto__"
      · exact .inl (hproto ▸ hname)
      · refine .inr (.inr ⟨name, by_contra fun hna => ?_, hproto, hdenotes⟩)
        exact hgone ⟨name, mem_addedToSet_of_denotes hdenotes hname hna hproto, hdenotes⟩
    · obtain ⟨hname, -, -, hproto⟩ := (mem_addedToSet _ _).mp hname
      exact .inr (.inr ⟨name, hname, hproto, hdenotes⟩)
  · intro hbefore
    by_contra hnone
    obtain ⟨hwanted, hgone⟩ := not_or.mp hnone
    refine hwanted ((h "__proto__").mp ⟨.inl (.inr ⟨by decide, _, hbefore, denotes_proto⟩), ?_⟩)
    rintro ⟨name, hname, hdenotes⟩
    obtain ⟨hname, hafter, -, hproto⟩ := (mem_addedToSet after before).mp hname
    exact hgone ⟨name, hname, hafter, hproto, hdenotes⟩

/-- **The changes reach the wanted channels exactly for separable names.** A session that starts
with any channels, subscribes to all of `before` and then sends the changes from `before` to `after`
has the channels it would have had from subscribing to all of `after`, if and only if no name that
is gone denotes a channel that stays, and `__proto__` makes no difference. -/
theorem channels_subscribeChanges_iff (g : Global M) (agent : Agent)
    (before after : ChannelNames) :
    (∀ c, c ∈ (runAll agent (runAll agent g (subscribe before.object))
        (subscribeChanges before.object after.object)).channels agent ↔
      c ∈ (runAll agent g (subscribe after.object)).channels agent) ↔
      Separable {c | c ∈ g.channels agent} before after := by
  simp only [mem_channels_subscribe g after]
  exact ⟨separable_of_channels, fun h c => h.channels c⟩

end Reached

/-- The set of one name. -/
def singleName (name : String) : ChannelNames where
  object := (∅ : JsObject).put name (some name)
  value_eq key value h := by
    rw [KMap.get?_put] at h
    split at h
    next hkey => rw [← Option.some_inj.mp h, names_same.mp hkey]
    next => cases h

/-- A name with a blank behind it is replaced by the name itself: the `Subscribe` comes first, and
the `Unsubscribe` takes the channel away that it asked for. -/
theorem removed_alias_unsubscribes :
    let agent : Agent := ⟨0, "key"⟩
    let g : Global Unit := {}
    ¬ ∀ c, c ∈ (runAll agent (runAll agent g (subscribe (singleName "#mom ").object))
        (subscribeChanges (singleName "#mom ").object (singleName "#mom").object)).channels agent ↔
      c ∈ (runAll agent g (subscribe (singleName "#mom").object)).channels agent := by
  intro agent g h
  exact absurd (h "#mom") (by decide)

end GWEMS

end Gwems
