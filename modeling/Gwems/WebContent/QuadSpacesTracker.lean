import Gwems.WebContent.QuadSpaces

/-!
# `QuadSpacesTracker.js`: the subscriptions of a tracker

A `QuadSpaces.Tracker` subscribes its owner to the cubes around it, at six sizes. `update` goes
through the levels "smallest to largest", stops at the first one whose publish channel has not
changed, and sends one batch: an `Unsubscribe` for every old name of the levels that changed, then a
`Subscribe` for every new one.

The main result is `subscriptions_agree`: after every sequence of updates the server has for the
tracker what the tracker believes it has. Behind it are two facts. The names of a level start with
its size, so that the batch of one level cannot touch the names of another; and the names that the
batch takes away and gives back are given back last.
-/

namespace Gwems

namespace QuadSpaces

variable {α : Type*}

/-! ### The tracker -/

/-- A `QuadSpaces.Level`. -/
structure Level where
  nextSend : ℤ := 0
  interval : ℤ := 1
  logscale : ℤ
  /-- "The publish channel". -/
  string : String := ""
  /-- "The channels for this level that we subscribe to." -/
  subscribeSpaces : JsObject := ∅

/-- A `QuadSpaces.Tracker`. -/
structure Tracker where
  userHash : String
  minLevel : ℤ := 2
  maxLevel : ℤ := 14
  intervals : List Level

/-- The loop of the constructor, from `minLevel` to `maxLevel` in steps of two, with intervals that
double. -/
def levels (minLevel maxLevel time : ℤ) : List Level :=
  (List.range ((maxLevel - minLevel + 1) / 2).toNat).map fun n : ℕ =>
    { logscale := minLevel + 2 * n, nextSend := time, interval := toInt32 (200 * 2 ^ n) }

/-- `new QuadSpaces.Tracker(socket, scene, userHash)` at a time. -/
def Tracker.new (userHash : String) (time : ℤ) : Tracker :=
  { userHash := userHash, intervals := levels 2 14 time }

/-- What a tracker sends: messages about subscriptions, and its position on a channel. -/
inductive TrackerMessage (α : Type*)
  | socket (message : SocketMessage)
  | publish (channel : String) (p v : Vector3 α) (id : String)

/-- The message as the server runs it: a `Publish` changes no subscription. -/
def TrackerMessage.toSocketMessage : TrackerMessage α → SocketMessage
  | .socket message => message
  | .publish _ _ _ _ => .other

/-- `for (key in source) target[key] = source[key]`. -/
def copyInto (target source : JsObject) : JsObject :=
  source.keys.foldl (fun target key => target.assign key (source.get? key).join) target

/-- The publish channel of a level, by its place among the levels. -/
def channelString (lodlist : List String) (i : ℕ) (logscale : ℤ) : String :=
  if i < lodlist.length then
    -- the call is `listToString(lodlist, i)`
    listToString lodlist
  else "[0_0_0_" ++ toString logscale ++ "]"

/-- A level with a new publish channel and the surroundings of a position. -/
def Level.moved (A : Arithmetic α) (position : Vector3 α) (str : String) (level : Level) : Level :=
  { level with
    string := str
    subscribeSpaces := surroundingSpaceNames A position level.logscale (level.logscale + 1) }

@[simp] theorem Level.moved_logscale (A : Arithmetic α) (position : Vector3 α) (str : String)
    (level : Level) : (level.moved A position str).logscale = level.logscale := rfl

@[simp] theorem Level.moved_string (A : Arithmetic α) (position : Vector3 α) (str : String)
    (level : Level) : (level.moved A position str).string = str := rfl

@[simp] theorem Level.moved_subscribeSpaces (A : Arithmetic α) (position : Vector3 α)
    (str : String) (level : Level) : (level.moved A position str).subscribeSpaces =
      surroundingSpaceNames A position level.logscale (level.logscale + 1) := rfl

/-- What the loop over the levels leaves. -/
structure Refresh where
  intervals : List Level
  nextUnsubs : JsObject
  nextSubscribedChannels : JsObject

/-- The loop over the levels, from the level with number `i` on. -/
def refresh (A : Arithmetic α) (position : Vector3 α) (lodlist : List String) :
    ℕ → List Level → JsObject → JsObject → Refresh
  | _, [], nextUnsubs, nextSubscribedChannels => ⟨[], nextUnsubs, nextSubscribedChannels⟩
  | i, level :: rest, nextUnsubs, nextSubscribedChannels =>
    let str := channelString lodlist i level.logscale
    if level.string ≠ str then
      let level' := level.moved A position str
      let r := refresh A position lodlist (i + 1) rest (copyInto nextUnsubs level.subscribeSpaces)
        (copyInto nextSubscribedChannels level'.subscribeSpaces)
      { r with intervals := level' :: r.intervals }
    else ⟨level :: rest, nextUnsubs, nextSubscribedChannels⟩

/-- A level behind the loop that sends: it is due again one interval later. -/
def Level.sent (time : ℤ) (level : Level) : Level :=
  if level.nextSend < time then { level with nextSend := level.nextSend + level.interval }
  else level

@[simp] theorem Level.sent_logscale (time : ℤ) (level : Level) :
    (level.sent time).logscale = level.logscale := by
  rw [sent]
  split <;> rfl

@[simp] theorem Level.sent_string (time : ℤ) (level : Level) :
    (level.sent time).string = level.string := by
  rw [sent]
  split <;> rfl

@[simp] theorem Level.sent_subscribeSpaces (time : ℤ) (level : Level) :
    (level.sent time).subscribeSpaces = level.subscribeSpaces := by
  rw [sent]
  split <;> rfl

/-- The loop that sends the position on the publish channels that are due. -/
def publishDue (time : ℤ) (p v : Vector3 α) (id : String) (intervals : List Level) :
    List Level × List (TrackerMessage α) :=
  (intervals.map (Level.sent time),
    intervals.flatMap fun level =>
      if level.nextSend < time then [.publish level.string p v id] else [])

/-- `update(position, velocity, delta)` at a time, and what it sends. -/
def Tracker.update (A : Arithmetic α) (t : Tracker) (isOpen : Bool) (time : ℤ)
    (position velocity : Vector3 α) : Tracker × List (TrackerMessage α) :=
  if isOpen = false then (t, [])
  else
    let lodlist := decompose A position t.minLevel
    let r := refresh A position lodlist 0 t.intervals ∅ ∅
    let (intervals, published) := publishDue time position velocity t.userHash r.intervals
    ({ t with intervals := intervals },
      (GWEMS.unsubscribe r.nextUnsubs ++ GWEMS.subscribe r.nextSubscribedChannels).map .socket ++
        published)

/-! ### One pass over the levels -/

/-- The loop, started at level `k`, gets to the level `i` places further on and finds that it has
changed: so have all the levels in between. -/
def Refreshed (lodlist : List String) (k : ℕ) (intervals : List Level) (i : ℕ) : Prop :=
  ∀ j ≤ i, ∀ level, intervals[j]? = some level →
    level.string ≠ channelString lodlist (k + j) level.logscale

section Refreshed

variable {lodlist : List String} {k i : ℕ} {level : Level} {rest : List Level}

theorem refreshed_cons_zero :
    Refreshed lodlist k (level :: rest) 0 ↔
      level.string ≠ channelString lodlist k level.logscale := by
  simp [Refreshed]

theorem refreshed_cons_succ :
    Refreshed lodlist k (level :: rest) (i + 1) ↔
      level.string ≠ channelString lodlist k level.logscale ∧
        Refreshed lodlist (k + 1) rest i := by
  constructor
  · intro h
    refine ⟨by simpa using h 0 (Nat.zero_le _) level rfl, fun j hj l hl => ?_⟩
    have hnext := h (j + 1) (Nat.succ_le_succ hj) l (by simpa using hl)
    rwa [Nat.add_right_comm k 1 j]
  · rintro ⟨hhead, htail⟩ j hj l hl
    cases j with
    | zero =>
      obtain rfl : level = l := by simpa using hl
      exact hhead
    | succ j =>
      have hnext := htail j (Nat.le_of_succ_le_succ hj) l (by simpa using hl)
      rwa [Nat.add_right_comm k 1 j] at hnext

end Refreshed

/-- Both names of a batch are properties that an assignment makes. -/
theorem not_mem_surroundingSpaceNames {A : Arithmetic α} {position : Vector3 α} {bias : ℤ} :
    "__proto__" ∉ (surroundingSpaceNames A position bias (bias + 1)).keys := by
  rw [mem_surroundingSpaceNames]
  rintro ⟨tmp, -, h⟩
  exact name_ne_proto _ h.symm

theorem mem_keys_copyInto {target source : JsObject} {key : String}
    (h : "__proto__" ∉ source.keys) :
    key ∈ (copyInto target source).keys ↔ key ∈ target.keys ∨ key ∈ source.keys :=
  JsObject.mem_keys_foldl_assign _ h target

/-- What one pass over the levels does: the levels it gets to are moved and the others are kept, and
the two sets collect the old and the new names of the levels it gets to. -/
structure RefreshSpec (A : Arithmetic α) (position : Vector3 α) (lodlist : List String) (k : ℕ)
    (intervals : List Level) (nextUnsubs nextSubscribedChannels : JsObject) (r : Refresh) :
    Prop where
  moved : ∀ i level, intervals[i]? = some level → Refreshed lodlist k intervals i →
    r.intervals[i]? = some (level.moved A position (channelString lodlist (k + i) level.logscale))
  kept : ∀ i level, intervals[i]? = some level → ¬ Refreshed lodlist k intervals i →
    r.intervals[i]? = some level
  length : r.intervals.length = intervals.length
  unsubs : ∀ key, key ∈ r.nextUnsubs.keys ↔ key ∈ nextUnsubs.keys ∨
    ∃ i level, intervals[i]? = some level ∧ Refreshed lodlist k intervals i ∧
      key ∈ level.subscribeSpaces.keys
  subs : ∀ key, key ∈ r.nextSubscribedChannels.keys ↔ key ∈ nextSubscribedChannels.keys ∨
    ∃ i level, intervals[i]? = some level ∧ Refreshed lodlist k intervals i ∧
      key ∈ (surroundingSpaceNames A position level.logscale (level.logscale + 1)).keys

/-- A level of the first place or of a later one. -/
theorem exists_getElem?_cons_iff {level : Level} {rest : List Level} {P : ℕ → Level → Prop} :
    (∃ i l, (level :: rest)[i]? = some l ∧ P i l) ↔
      P 0 level ∨ ∃ i l, rest[i]? = some l ∧ P (i + 1) l := by
  constructor
  · rintro ⟨_ | i, l, hl, h⟩
    · obtain rfl : level = l := by simpa using hl
      exact .inl h
    · exact .inr ⟨i, l, by simpa using hl, h⟩
  · rintro (h | ⟨i, l, hl, h⟩)
    · exact ⟨0, level, rfl, h⟩
    · exact ⟨i + 1, l, by simpa using hl, h⟩

/-- **The pass over the levels does what `RefreshSpec` says.** -/
theorem refreshSpec_refresh (A : Arithmetic α) (position : Vector3 α) (lodlist : List String)
    (intervals : List Level)
    (hplain : ∀ level ∈ intervals, "__proto__" ∉ level.subscribeSpaces.keys) (k : ℕ)
    (nextUnsubs nextSubscribedChannels : JsObject) :
    RefreshSpec A position lodlist k intervals nextUnsubs nextSubscribedChannels
      (refresh A position lodlist k intervals nextUnsubs nextSubscribedChannels) := by
  induction intervals generalizing k nextUnsubs nextSubscribedChannels with
  | nil => constructor <;> simp [refresh]
  | cons level rest ih =>
    obtain ⟨hlevel, hrest⟩ := List.forall_mem_cons.mp hplain
    by_cases hchanged : level.string ≠ channelString lodlist k level.logscale
    · have spec := ih hrest (k + 1) (copyInto nextUnsubs level.subscribeSpaces)
        (copyInto nextSubscribedChannels
          (level.moved A position (channelString lodlist k level.logscale)).subscribeSpaces)
      rw [refresh, if_pos hchanged]
      refine ⟨fun i l hl hi => ?_, fun i l hl hi => ?_, ?_, fun key => ?_, fun key => ?_⟩
      · cases i with
        | zero =>
          obtain rfl : level = l := by simpa using hl
          rfl
        | succ i =>
          rw [refreshed_cons_succ] at hi
          have hmoved := spec.moved i l (by simpa using hl) hi.2
          rw [Nat.add_right_comm k 1 i] at hmoved
          exact hmoved
      · cases i with
        | zero => exact absurd (refreshed_cons_zero.mpr hchanged) hi
        | succ i =>
          have hi' : ¬ Refreshed lodlist (k + 1) rest i := fun h =>
            hi (refreshed_cons_succ.mpr ⟨hchanged, h⟩)
          simpa using spec.kept i l (by simpa using hl) hi'
      · exact congrArg (· + 1) spec.length
      · rw [spec.unsubs, mem_keys_copyInto hlevel, or_assoc, exists_getElem?_cons_iff,
          refreshed_cons_zero]
        simp only [refreshed_cons_succ, hchanged, true_and, ne_eq, not_false_eq_true]
      · rw [spec.subs, Level.moved_subscribeSpaces,
          mem_keys_copyInto not_mem_surroundingSpaceNames, or_assoc, exists_getElem?_cons_iff,
          refreshed_cons_zero]
        simp only [refreshed_cons_succ, hchanged, true_and, ne_eq, not_false_eq_true]
    · -- the loop stops here
      have hnone : ∀ i, ¬ Refreshed lodlist k (level :: rest) i := fun i h =>
        hchanged (by simpa using h 0 (Nat.zero_le _) level rfl)
      rw [refresh, if_neg hchanged]
      refine ⟨fun i l _ hi => absurd hi (hnone i), fun i l hl _ => hl, rfl, fun key => ?_,
        fun key => ?_⟩
      · refine (or_iff_left ?_).symm
        rintro ⟨i, l, -, hi, -⟩
        exact hnone i hi
      · refine (or_iff_left ?_).symm
        rintro ⟨i, l, -, hi, -⟩
        exact hnone i hi

/-! ### Updates -/

/-- The names that a level of one size can have. -/
def IsNameAt (logscale : ℤ) (key : String) : Prop := ∃ v, key = name (quads v logscale)

/-- The name of some list of quads. -/
def IsName (key : String) : Prop := ∃ list, list ≠ [] ∧ key = name list

theorem IsNameAt.isName {logscale : ℤ} {key : String} (h : IsNameAt logscale key) : IsName key := by
  obtain ⟨v, rfl⟩ := h
  exact ⟨_, quads_ne_nil _ _, rfl⟩

/-- **Names of different sizes are different.** -/
theorem IsNameAt.unique {m n : ℤ} {key : String} (hm : IsNameAt m key) (hn : IsNameAt n key) :
    m = n := by
  obtain ⟨v, rfl⟩ := hm
  obtain ⟨w, h⟩ := hn
  have hquads := name_injective (quads_ne_nil _ _) (quads_ne_nil _ _) h
  have hhead := congrArg (fun l => l.head?.map Quad.p) hquads
  simpa only [head?_quads, Option.some_inj] using hhead

theorem IsName.denotes {key c : String} (h : IsName key) : GWEMS.Denotes key c ↔ c = key := by
  obtain ⟨list, hlist, rfl⟩ := h
  exact denotes_name hlist

theorem IsName.length_ne_zero {key : String} (h : IsName key) : key.length ≠ 0 := by
  obtain ⟨list, -, rfl⟩ := h
  exact name_length_ne_zero list

theorem isNameAt_of_mem {A : Arithmetic α} {position : Vector3 α} {bias : ℤ} {key : String}
    (h : key ∈ (surroundingSpaceNames A position bias (bias + 1)).keys) : IsNameAt bias key := by
  obtain ⟨tmp, -, rfl⟩ := mem_surroundingSpaceNames.mp h
  exact ⟨_, rfl⟩

/-- The levels have the sizes 4 m, 16 m and so on, and every level has names of its size. -/
structure Tracker.Named (t : Tracker) : Prop where
  logscale : ∀ (i : ℕ) (level : Level), t.intervals[i]? = some level → level.logscale = 2 + 2 * i
  named : ∀ (i : ℕ) (level : Level), t.intervals[i]? = some level →
    ∀ key ∈ level.subscribeSpaces.keys, IsNameAt level.logscale key

/-- The channels that a tracker believes it is subscribed to. -/
def Tracker.Believes (t : Tracker) (c : String) : Prop :=
  ∃ level ∈ t.intervals, c ∈ level.subscribeSpaces.keys

theorem Tracker.believes_iff {t : Tracker} {c : String} :
    t.Believes c ↔ ∃ (i : ℕ) (level : Level), t.intervals[i]? = some level ∧
      c ∈ level.subscribeSpaces.keys := by
  constructor
  · rintro ⟨level, hlevel, hc⟩
    obtain ⟨i, hi⟩ := List.mem_iff_getElem?.mp hlevel
    exact ⟨i, level, hi, hc⟩
  · rintro ⟨i, level, hi, hc⟩
    exact ⟨level, List.mem_of_getElem? hi, hc⟩

section Update

variable {A : Arithmetic α} {t : Tracker} {time : ℤ} {position velocity : Vector3 α} {i : ℕ}

theorem getElem?_new {userHash : String} {level : Level}
    (h : (Tracker.new userHash time).intervals[i]? = some level) :
    i < 6 ∧ level.logscale = 2 + 2 * i ∧ level.string = "" ∧ level.subscribeSpaces = ∅ := by
  have hcount : (((14 : ℤ) - 2 + 1) / 2).toNat = 6 := by decide
  rw [Tracker.new, levels, hcount, List.getElem?_map, Option.map_eq_some_iff] at h
  obtain ⟨n, hn, rfl⟩ := h
  obtain ⟨hlt, hn⟩ := List.getElem?_eq_some_iff.mp hn
  rw [List.getElem_range] at hn
  subst hn
  exact ⟨by simpa using hlt, rfl, rfl, rfl⟩

theorem named_new (userHash : String) (time : ℤ) : (Tracker.new userHash time).Named where
  logscale _ _ h := (getElem?_new h).2.1
  named i level h key hkey := by
    rw [(getElem?_new h).2.2.2] at hkey
    simp [JsObject.mem_keys] at hkey

theorem Tracker.Named.plain (ht : t.Named) {level : Level} (hlevel : level ∈ t.intervals) :
    "__proto__" ∉ level.subscribeSpaces.keys := by
  intro hmem
  obtain ⟨i, hi⟩ := List.mem_iff_getElem?.mp hlevel
  obtain ⟨v, hv⟩ := ht.named i level hi _ hmem
  exact name_ne_proto _ hv.symm

/-- The two sets of an open update. -/
theorem Tracker.Named.refresh (ht : t.Named) (A : Arithmetic α) (position : Vector3 α) :
    RefreshSpec A position (decompose A position t.minLevel) 0 t.intervals ∅ ∅
      (QuadSpaces.refresh A position (decompose A position t.minLevel) 0 t.intervals ∅ ∅) :=
  refreshSpec_refresh A position _ _ (fun _ h => ht.plain h) 0 ∅ ∅

/-- A level of an updated tracker has been moved, if the loop got to it, or is as it was. -/
theorem Tracker.Named.getElem?_update (ht : t.Named) {level' : Level}
    (h : (t.update A true time position velocity).1.intervals[i]? = some level') :
    ∃ level, t.intervals[i]? = some level ∧ level'.logscale = level.logscale ∧
      (Refreshed (decompose A position t.minLevel) 0 t.intervals i →
        level'.string = channelString (decompose A position t.minLevel) i level.logscale ∧
        level'.subscribeSpaces =
          surroundingSpaceNames A position level.logscale (level.logscale + 1)) ∧
      (¬ Refreshed (decompose A position t.minLevel) 0 t.intervals i →
        level'.string = level.string ∧ level'.subscribeSpaces = level.subscribeSpaces) := by
  have spec := ht.refresh A position
  simp only [update, Bool.true_eq_false, if_false, publishDue, List.getElem?_map,
    Option.map_eq_some_iff] at h
  obtain ⟨l, hl, rfl⟩ := h
  have hi : i < t.intervals.length := spec.length ▸ (List.getElem?_eq_some_iff.mp hl).1
  refine ⟨_, List.getElem?_eq_getElem hi, ?_, fun hr => ?_, fun hr => ?_⟩
  · by_cases hr : Refreshed (decompose A position t.minLevel) 0 t.intervals i
    · obtain rfl := Option.some_inj.mp (hl.symm.trans
        (spec.moved i _ (List.getElem?_eq_getElem hi) hr))
      simp
    · obtain rfl := Option.some_inj.mp (hl.symm.trans
        (spec.kept i _ (List.getElem?_eq_getElem hi) hr))
      simp
  · obtain rfl := Option.some_inj.mp (hl.symm.trans
      (spec.moved i _ (List.getElem?_eq_getElem hi) hr))
    simp
  · obtain rfl := Option.some_inj.mp (hl.symm.trans
      (spec.kept i _ (List.getElem?_eq_getElem hi) hr))
    simp

theorem Tracker.Named.length_update (ht : t.Named) :
    (t.update A true time position velocity).1.intervals.length = t.intervals.length := by
  simp only [update, Bool.true_eq_false, if_false, publishDue, List.length_map]
  exact (ht.refresh A position).length

/-- The step lemma: an update keeps a tracker named. -/
theorem Tracker.Named.update (ht : t.Named) :
    (t.update A true time position velocity).1.Named := by
  refine ⟨fun i level' h => ?_, fun i level' h key hkey => ?_⟩
  · obtain ⟨level, hlevel, hscale, -⟩ := ht.getElem?_update h
    rw [hscale, ht.logscale i level hlevel]
  · obtain ⟨level, hlevel, hscale, hmoved, hkept⟩ := ht.getElem?_update h
    rw [hscale]
    by_cases hr : Refreshed (decompose A position t.minLevel) 0 t.intervals i
    · rw [(hmoved hr).2] at hkey
      exact isNameAt_of_mem hkey
    · rw [(hkept hr).2] at hkey
      exact ht.named i level hlevel key hkey

end Update

/-! ### Tracker and server -/

section Server

variable {M : Type*} {A : Arithmetic α} {agent : Agent} {g : Global M}

/-- One call of `update`. -/
structure Update (α : Type*) where
  time : ℤ
  position : Vector3 α
  velocity : Vector3 α

/-- An update with the socket open, and the server's processing of what it sends. -/
def track (A : Arithmetic α) (agent : Agent) (s : Tracker × Global M) (u : Update α) :
    Tracker × Global M :=
  let (t, sent) := s.1.update A true u.time u.position u.velocity
  (t, GWEMS.runAll agent s.2 (sent.map TrackerMessage.toSocketMessage))

/-- Messages that are no subscriptions leave the server as it is. -/
theorem runAll_published (messages : List (TrackerMessage α))
    (h : ∀ message ∈ messages, message.toSocketMessage = .other) (g : Global M) :
    GWEMS.runAll agent g (messages.map TrackerMessage.toSocketMessage) = g := by
  induction messages generalizing g with
  | nil => rfl
  | cons message messages ih =>
    obtain ⟨hmessage, hrest⟩ := List.forall_mem_cons.mp h
    rw [GWEMS.runAll, List.map_cons, List.foldl_cons, ← GWEMS.runAll, ih hrest, hmessage]
    rfl

theorem publishDue_other {time : ℤ} {p v : Vector3 α} {id : String} {intervals : List Level} :
    ∀ message ∈ (publishDue time p v id intervals).2, message.toSocketMessage = .other := by
  intro message hmessage
  obtain ⟨level, -, hlevel⟩ := List.mem_flatMap.mp hmessage
  split at hlevel
  next =>
    obtain rfl := List.mem_singleton.mp hlevel
    rfl
  next => cases hlevel

/-- A batch of names: what is not taken away stays, and what is given is there. -/
theorem mem_channels_batch {unsubs subs : JsObject} (hunsubs : ∀ key ∈ unsubs.keys, IsName key)
    (hsubs : ∀ key ∈ subs.keys, IsName key) {c : String} :
    c ∈ (GWEMS.runAll agent g (GWEMS.unsubscribe unsubs ++ GWEMS.subscribe subs)).channels agent ↔
      (c ∈ g.channels agent ∧ c ∉ unsubs.keys) ∨ c ∈ subs.keys := by
  have hdenotes : ∀ {o : JsObject}, (∀ key ∈ o.keys, IsName key) →
      ((∃ key ∈ o.keys, GWEMS.Denotes key c) ↔ c ∈ o.keys) := by
    intro o ho
    constructor
    · rintro ⟨key, hkey, h⟩
      exact (ho key hkey).denotes.mp h ▸ hkey
    · intro hc
      exact ⟨c, hc, (ho c hc).denotes.mpr rfl⟩
  rw [GWEMS.runAll, List.foldl_append, ← GWEMS.runAll, ← GWEMS.runAll, GWEMS.subscribe,
    GWEMS.mem_channels_runAll_subscribe, GWEMS.unsubscribe, GWEMS.mem_channels_runAll_unsubscribe,
    hdenotes hunsubs, hdenotes hsubs]
  exact or_congr_right (and_iff_right_of_imp fun hc => (hsubs c hc).length_ne_zero)

/-- The messages of an update change the subscriptions by one batch. -/
theorem runAll_update (t : Tracker) (g : Global M) (u : Update α) :
    let r := refresh A u.position (decompose A u.position t.minLevel) 0 t.intervals ∅ ∅
    GWEMS.runAll agent g
        ((t.update A true u.time u.position u.velocity).2.map TrackerMessage.toSocketMessage) =
      GWEMS.runAll agent g
        (GWEMS.unsubscribe r.nextUnsubs ++ GWEMS.subscribe r.nextSubscribedChannels) := by
  intro r
  have hsocket : ∀ messages : List SocketMessage,
      (messages.map (TrackerMessage.socket (α := α))).map TrackerMessage.toSocketMessage =
        messages := by
    intro messages
    rw [List.map_map]
    exact List.map_id messages
  simp only [Tracker.update, Bool.true_eq_false, if_false]
  rw [List.map_append, hsocket, GWEMS.runAll, List.foldl_append, ← GWEMS.runAll, ← GWEMS.runAll,
    runAll_published _ publishDue_other]

/-- The server has what it had before there was a tracker, and what the tracker believes it has. -/
structure Agrees (base : Set String) (agent : Agent) (s : Tracker × Global M) : Prop where
  named : s.1.Named
  channels : ∀ c, c ∈ s.2.channels agent ↔ c ∈ base ∨ s.1.Believes c

/-- What a tracker believes after an update: what it believed, less the names that the batch takes
away, and the names that the batch gives. -/
theorem Tracker.Named.believes_update {t : Tracker} (ht : t.Named) (u : Update α) {c : String} :
    let r := QuadSpaces.refresh A u.position (decompose A u.position t.minLevel) 0 t.intervals ∅ ∅
    (t.update A true u.time u.position u.velocity).1.Believes c ↔
      (t.Believes c ∧ c ∉ r.nextUnsubs.keys) ∨ c ∈ r.nextSubscribedChannels.keys := by
  intro r
  have spec := ht.refresh A u.position
  have hempty : c ∉ (∅ : JsObject).keys := by simp [JsObject.mem_keys]
  -- behind the loop that sends, level `i` is what it was before it
  have hsent : ∀ {i : ℕ} {level : Level}, r.intervals[i]? = some level →
      (t.update A true u.time u.position u.velocity).1.intervals[i]? =
        some (level.sent u.time) := by
    intro i level h
    have hmap := congrArg (Option.map (Level.sent u.time)) h
    rw [← List.getElem?_map] at hmap
    exact hmap
  rw [Tracker.believes_iff, Tracker.believes_iff]
  constructor
  · rintro ⟨i, level', hlevel', hc⟩
    obtain ⟨level, hlevel, -, hmoved, hkept⟩ := ht.getElem?_update hlevel'
    by_cases hi : Refreshed (decompose A u.position t.minLevel) 0 t.intervals i
    · rw [(hmoved hi).2] at hc
      exact .inr ((spec.subs c).mpr (.inr ⟨i, level, hlevel, hi, hc⟩))
    · rw [(hkept hi).2] at hc
      refine .inl ⟨⟨i, level, hlevel, hc⟩, fun hgone => ?_⟩
      -- the batch takes away names of other sizes only
      obtain ⟨j, other, hother, hj, hc'⟩ := ((spec.unsubs c).mp hgone).resolve_left hempty
      have hscale := (ht.named i level hlevel c hc).unique (ht.named j other hother c hc')
      rw [ht.logscale i level hlevel, ht.logscale j other hother] at hscale
      obtain rfl : i = j := by omega
      exact hi hj
  · rintro (⟨⟨i, level, hlevel, hc⟩, hgone⟩ | hc)
    · -- a name that stays is a name of a level the loop did not get to
      have hkept : ¬ Refreshed (decompose A u.position t.minLevel) 0 t.intervals i := fun hi =>
        hgone ((spec.unsubs c).mpr (.inr ⟨i, level, hlevel, hi, hc⟩))
      exact ⟨i, _, hsent (spec.kept i level hlevel hkept), by simpa using hc⟩
    · obtain ⟨i, level, hlevel, hi, hmem⟩ := ((spec.subs c).mp hc).resolve_left hempty
      exact ⟨i, _, hsent (spec.moved i level hlevel hi), by simpa using hmem⟩

/-- The batch of an update consists of names of cubes. -/
theorem Tracker.Named.isName_batch {t : Tracker} (ht : t.Named) (u : Update α) :
    let r := QuadSpaces.refresh A u.position (decompose A u.position t.minLevel) 0 t.intervals ∅ ∅
    (∀ key ∈ r.nextUnsubs.keys, IsName key) ∧
      ∀ key ∈ r.nextSubscribedChannels.keys, IsName key := by
  intro r
  have spec := ht.refresh A u.position
  have hempty : ∀ key, key ∉ (∅ : JsObject).keys := fun key => by simp [JsObject.mem_keys]
  constructor
  · intro key hkey
    obtain ⟨i, level, hlevel, -, hmem⟩ := ((spec.unsubs key).mp hkey).resolve_left (hempty key)
    exact (ht.named i level hlevel key hmem).isName
  · intro key hkey
    obtain ⟨i, level, hlevel, -, hmem⟩ := ((spec.subs key).mp hkey).resolve_left (hempty key)
    exact (isNameAt_of_mem hmem).isName

/-- The step lemma. -/
theorem Agrees.track {base : Set String} (hbase : ∀ c ∈ base, ¬ IsName c)
    {s : Tracker × Global M} (h : Agrees base agent s) (u : Update α) :
    Agrees base agent (track A agent s u) := by
  obtain ⟨hunsubs, hsubs⟩ := h.named.isName_batch (A := A) u
  have hnamed : (s.1.update A true u.time u.position u.velocity).1.Named := h.named.update
  refine ⟨hnamed, fun c => ?_⟩
  have hserver := @runAll_update α M A agent s.1 s.2 u
  have hbelieves := h.named.believes_update (A := A) u (c := c)
  simp only [QuadSpaces.track] at hserver hbelieves ⊢
  rw [hserver, mem_channels_batch hunsubs hsubs, hbelieves, h.channels]
  constructor
  · rintro (⟨hc | hc, hgone⟩ | hc)
    · exact .inl hc
    · exact .inr (.inl ⟨hc, hgone⟩)
    · exact .inr (.inr hc)
  · rintro (hc | ⟨hc, hgone⟩ | hc)
    · exact .inl ⟨.inl hc, fun hgone => hbase c hc (hunsubs c hgone)⟩
    · exact .inl ⟨.inr hc, hgone⟩
    · exact .inr hc

/-- **Tracker and server agree on subscriptions.** From a session without the name of a cube among
its channels, after any sequence of updates of a new tracker with the socket open, the session has
the channels it had and those in the `subscribeSpaces` of the levels, and no others. -/
theorem subscriptions_agree (A : Arithmetic α) (userHash : String) (time : ℤ) (agent : Agent)
    (g : Global M) (hg : ∀ c ∈ g.channels agent, ¬ IsName c) (updates : List (Update α)) :
    let s := updates.foldl (track A agent) (Tracker.new userHash time, g)
    ∀ c, c ∈ s.2.channels agent ↔
      c ∈ g.channels agent ∨ ∃ level ∈ s.1.intervals, c ∈ level.subscribeSpaces.keys := by
  have hrun : ∀ (updates : List (Update α)) (s : Tracker × Global M),
      Agrees {c | c ∈ g.channels agent} agent s →
      Agrees {c | c ∈ g.channels agent} agent (updates.foldl (track A agent) s) := by
    intro updates
    induction updates with
    | nil => exact fun s h => h
    | cons u updates ih => exact fun s h => ih _ (h.track hg u)
  refine (hrun updates _ ⟨named_new userHash time, fun c => (or_iff_left ?_).symm⟩).channels
  rw [Tracker.believes_iff]
  rintro ⟨i, level, hlevel, hc⟩
  rw [(getElem?_new hlevel).2.2.2] at hc
  simp [JsObject.mem_keys] at hc

/-- A tracker that moves by fifty meters. -/
theorem subscriptions_agree_two_updates :
    let agent : Agent := ⟨0, "key"⟩
    let updates : List (Update ℚ) := [⟨0, ⟨1, 2, 3⟩, ⟨0, 0, 0⟩⟩, ⟨200, ⟨51, 2, 3⟩, ⟨0, 0, 0⟩⟩]
    let s := updates.foldl (track .exact agent) (Tracker.new "me" 0, ({} : Global Unit))
    ∀ c, c ∈ s.2.channels agent ↔
      c ∈ ({} : Global Unit).channels agent ∨
        ∃ level ∈ s.1.intervals, c ∈ level.subscribeSpaces.keys :=
  subscriptions_agree .exact "me" 0 _ {} (fun c hc => absurd hc (by simp [Global.mem_channels])) _

end Server

end QuadSpaces

end Gwems
