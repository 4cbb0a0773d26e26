import Gwems.WebContent.QuadSpacesVisibility

/-!
# `QuadSpacesTracker.js`: channels that stay when a tracker moves

When a tracker moves, the cubes around the old and the new position overlap. `update` does not take
the difference of the two sets, as `GWEMS.subscribeChanges` does: it sends an `Unsubscribe` for
every old name of the levels it renews, and then a `Subscribe` for every new one. A channel that is
in both sets is gone from the server in between, and what is published there at that time is lost.

`keepsCommon_iff` says which updates do not interrupt a channel: those that share no name between
the old and the new cubes of a level they renew. `keepsCommon_run_iff` is the same for all updates
of a run.
-/

namespace Gwems

namespace GWEMS

variable {M : Type*} {agent : Agent} {c : String}

/-- A session loses a channel only by an `Unsubscribe` for it. -/
theorem mem_channels_runAll_of_forall {messages : List SocketMessage}
    (hother : ∀ message ∈ messages, (∃ name, message = .subscribe name) ∨ message = .other ∨
      ∃ name, message = .unsubscribe name ∧ ¬ Denotes name c)
    {g : Global M} (hc : c ∈ g.channels agent) : c ∈ (runAll agent g messages).channels agent := by
  induction messages generalizing g with
  | nil => exact hc
  | cons message messages ih =>
    obtain ⟨hmessage, hrest⟩ := List.forall_mem_cons.mp hother
    rw [runAll, List.foldl_cons, ← runAll]
    refine ih hrest ?_
    rcases hmessage with ⟨name, rfl⟩ | rfl | ⟨name, rfl, hname⟩
    · exact mem_channels_run_subscribe.mpr (.inl hc)
    · exact hc
    · exact mem_channels_run_unsubscribe.mpr ⟨hc, hname⟩

end GWEMS

namespace QuadSpaces

variable {α : Type*} {A : Arithmetic α} {M : Type*} {agent : Agent} {t : Tracker} {g : Global M}
  {u : Update α}

/-- While the server goes through the messages of an update, the session has the channels that are
in the set of the tracker before and after it. -/
def KeepsCommon (A : Arithmetic α) (agent : Agent) (s : Tracker × Global M) (u : Update α) : Prop :=
  let (t, messages) := s.1.update A true u.time u.position u.velocity
  ∀ c, s.1.Believes c → t.Believes c → ∀ sent, sent <+: messages →
    c ∈ (GWEMS.runAll agent s.2 (sent.map TrackerMessage.toSocketMessage)).channels agent

/-- Of every level that an update renews, no cube is both around the old position and around the new
one. -/
def MovesApart (A : Arithmetic α) (t : Tracker) (u : Update α) : Prop :=
  ∀ (i : ℕ) (level : Level), t.intervals[i]? = some level →
    Refreshed (decompose A u.position t.minLevel) 0 t.intervals i →
    ∀ key ∈ level.subscribeSpaces.keys,
      key ∉ (surroundingSpaceNames A u.position level.logscale (level.logscale + 1)).keys

/-! ### One update -/

/-- The two sets of an update. -/
def Tracker.batch (A : Arithmetic α) (t : Tracker) (u : Update α) : Refresh :=
  refresh A u.position (decompose A u.position t.minLevel) 0 t.intervals ∅ ∅

theorem Tracker.Named.mem_nextUnsubs (ht : t.Named) (u : Update α) {c : String} :
    c ∈ (t.batch A u).nextUnsubs.keys ↔ ∃ i level, t.intervals[i]? = some level ∧
      Refreshed (decompose A u.position t.minLevel) 0 t.intervals i ∧
      c ∈ level.subscribeSpaces.keys := by
  have hempty : c ∉ (∅ : JsObject).keys := by simp [JsObject.mem_keys]
  exact ((ht.refresh A u.position).unsubs c).trans (or_iff_right hempty)

theorem Tracker.Named.mem_nextSubscribedChannels (ht : t.Named) (u : Update α) {c : String} :
    c ∈ (t.batch A u).nextSubscribedChannels.keys ↔ ∃ i level, t.intervals[i]? = some level ∧
      Refreshed (decompose A u.position t.minLevel) 0 t.intervals i ∧
      c ∈ (surroundingSpaceNames A u.position level.logscale (level.logscale + 1)).keys := by
  have hempty : c ∉ (∅ : JsObject).keys := by simp [JsObject.mem_keys]
  exact ((ht.refresh A u.position).subs c).trans (or_iff_right hempty)

theorem Tracker.Named.believes_iff_batch (ht : t.Named) (u : Update α) {c : String} :
    (t.update A true u.time u.position u.velocity).1.Believes c ↔
      (t.Believes c ∧ c ∉ (t.batch A u).nextUnsubs.keys) ∨
        c ∈ (t.batch A u).nextSubscribedChannels.keys :=
  ht.believes_update u

/-- What is taken away was in the set of the tracker. -/
theorem Tracker.Named.believes_of_mem_nextUnsubs (ht : t.Named) (u : Update α) {c : String}
    (hc : c ∈ (t.batch A u).nextUnsubs.keys) : t.Believes c := by
  obtain ⟨i, level, hlevel, -, hmem⟩ := (ht.mem_nextUnsubs u).mp hc
  exact ⟨level, List.mem_of_getElem? hlevel, hmem⟩

/-- A name is taken away and still in the set of the tracker behind the update, if and only if it is
an old and a new name of a level that is renewed. -/
theorem Tracker.Named.movesApart_iff (ht : t.Named) (u : Update α) :
    MovesApart A t u ↔ ∀ c, (t.update A true u.time u.position u.velocity).1.Believes c →
      c ∉ (t.batch A u).nextUnsubs.keys := by
  constructor
  · intro happart c hc hgone
    have hnew := ((ht.believes_iff_batch u).mp hc).resolve_left fun h => h.2 hgone
    obtain ⟨i, level, hlevel, hi, hold⟩ := (ht.mem_nextUnsubs u).mp hgone
    obtain ⟨j, other, hother, -, hmem⟩ := (ht.mem_nextSubscribedChannels u).mp hnew
    -- a name belongs to one level
    have hscale := (ht.named i level hlevel c hold).unique (isNameAt_of_mem hmem)
    rw [ht.logscale i level hlevel, ht.logscale j other hother] at hscale
    obtain rfl : i = j := by omega
    obtain rfl : level = other := Option.some_inj.mp (hlevel.symm.trans hother)
    exact happart i level hlevel hi c hold hmem
  · intro h i level hlevel hi key hold hnew
    exact h key
      ((ht.believes_iff_batch u).mpr
        (.inr ((ht.mem_nextSubscribedChannels u).mpr ⟨i, level, hlevel, hi, hnew⟩)))
      ((ht.mem_nextUnsubs u).mpr ⟨i, level, hlevel, hi, hold⟩)

/-- What an open update sends: what it takes away, what it gives, and positions. -/
theorem update_messages (A : Arithmetic α) (t : Tracker) (u : Update α) :
    (t.update A true u.time u.position u.velocity).2 =
      (GWEMS.unsubscribe (t.batch A u).nextUnsubs).map .socket ++
        ((GWEMS.subscribe (t.batch A u).nextSubscribedChannels).map .socket ++
          (publishDue u.time u.position u.velocity t.userHash (t.batch A u).intervals).2) := by
  simp [Tracker.update, Tracker.batch, List.append_assoc]

/-- What takes a channel away in an update. -/
theorem Tracker.Named.message_cases (ht : t.Named) (u : Update α) {c : String}
    (hc : c ∉ (t.batch A u).nextUnsubs.keys) {message : TrackerMessage α}
    (h : message ∈ (t.update A true u.time u.position u.velocity).2) :
    (∃ name, message.toSocketMessage = .subscribe name) ∨ message.toSocketMessage = .other ∨
      ∃ name, message.toSocketMessage = .unsubscribe name ∧ ¬ GWEMS.Denotes name c := by
  obtain ⟨hunsubs, -⟩ := ht.isName_batch (A := A) u
  rw [update_messages, List.mem_append, List.mem_append] at h
  rcases h with h | h | h
  · obtain ⟨_, hmessage, rfl⟩ := List.mem_map.mp h
    obtain ⟨name, hname, rfl⟩ := List.mem_map.mp hmessage
    refine .inr (.inr ⟨name, rfl, fun hdenotes => hc ?_⟩)
    rwa [(hunsubs name hname).denotes.mp hdenotes]
  · obtain ⟨_, hmessage, rfl⟩ := List.mem_map.mp h
    obtain ⟨name, -, rfl⟩ := List.mem_map.mp hmessage
    exact .inl ⟨name, rfl⟩
  · exact .inr (.inl (publishDue_other message h))

/-- **Which updates interrupt no channel** of a session that has the channels of its tracker: those
of which the renewed levels share no name. -/
theorem keepsCommon_iff (ht : t.Named) (hg : ∀ c, t.Believes c → c ∈ g.channels agent)
    (u : Update α) : KeepsCommon A agent (t, g) u ↔ MovesApart A t u := by
  obtain ⟨hunsubs, -⟩ := ht.isName_batch (A := A) u
  rw [ht.movesApart_iff]
  constructor
  · intro h c hafter hgone
    -- the prefix that ends before anything is given back
    have hprefix : (GWEMS.unsubscribe (t.batch A u).nextUnsubs).map .socket <+:
        (t.update A true u.time u.position u.velocity).2 := by
      rw [update_messages]
      exact List.prefix_append _ _
    have hc := h c (ht.believes_of_mem_nextUnsubs u hgone) hafter _ hprefix
    have hsocket : ((GWEMS.unsubscribe (t.batch A u).nextUnsubs).map
        (TrackerMessage.socket (α := α))).map TrackerMessage.toSocketMessage =
          GWEMS.unsubscribe (t.batch A u).nextUnsubs := by
      rw [List.map_map]
      exact List.map_id _
    rw [hsocket, GWEMS.unsubscribe, GWEMS.mem_channels_runAll_unsubscribe] at hc
    exact hc.2 ⟨c, hgone, (hunsubs c hgone).denotes.mpr rfl⟩
  · intro h c hbefore hafter sent hsent
    refine GWEMS.mem_channels_runAll_of_forall (fun message hmessage => ?_) (hg c hbefore)
    obtain ⟨m, hm, rfl⟩ := List.mem_map.mp hmessage
    exact ht.message_cases u (h c hafter) (hsent.subset hm)

/-! ### All updates -/

/-- A named tracker of which the server has all channels. -/
structure Served (agent : Agent) (s : Tracker × Global M) : Prop where
  named : s.1.Named
  channels : ∀ c, s.1.Believes c → c ∈ s.2.channels agent

theorem served_new (userHash : String) (time : ℤ) (agent : Agent) (g : Global M) :
    Served agent (Tracker.new userHash time, g) := by
  refine ⟨named_new userHash time, fun c hc => ?_⟩
  obtain ⟨i, level, hlevel, hmem⟩ := Tracker.believes_iff.mp hc
  rw [(getElem?_new hlevel).2.2.2] at hmem
  simp [JsObject.mem_keys] at hmem

/-- The step lemma: an update gives the server what the tracker believes. -/
theorem Served.track {s : Tracker × Global M} (h : Served agent s) (u : Update α) :
    Served agent (track A agent s u) := by
  obtain ⟨hunsubs, hsubs⟩ := h.named.isName_batch (A := A) u
  have hserver := @runAll_update α M A agent s.1 s.2 u
  have hnamed : (s.1.update A true u.time u.position u.velocity).1.Named := h.named.update
  refine ⟨hnamed, fun c hc => ?_⟩
  have hbelieves := (h.named.believes_iff_batch u).mp hc
  simp only [QuadSpaces.track] at hserver ⊢
  rw [hserver, mem_channels_batch hunsubs hsubs]
  exact hbelieves.imp_left fun hkept => ⟨h.channels c hkept.1, hkept.2⟩

/-- The run lemma. -/
theorem Served.run {s : Tracker × Global M} (h : Served agent s) (updates : List (Update α)) :
    Served agent (updates.foldl (QuadSpaces.track A agent) s) := by
  induction updates generalizing s with
  | nil => exact h
  | cons u updates ih => exact ih (h.track u)

/-- **Common channels stay subscribed** throughout a run of a new tracker, if and only if every
update shares no name between the old and the new cubes of a level that it renews. -/
theorem keepsCommon_run_iff (A : Arithmetic α) (userHash : String) (time : ℤ) (agent : Agent)
    (g : Global M) (updates : List (Update α)) :
    (∀ before u after, updates = before ++ u :: after →
      KeepsCommon A agent (before.foldl (track A agent) (Tracker.new userHash time, g)) u) ↔
    ∀ before u after, updates = before ++ u :: after →
      MovesApart A (before.foldl (track A agent) (Tracker.new userHash time, g)).1 u := by
  have hserved := fun before => (served_new userHash time agent g).run (A := A) before
  refine forall_congr' fun before => forall_congr' fun u => forall_congr' fun after => ?_
  exact imp_congr_right fun _ =>
    keepsCommon_iff (hserved before).named (hserved before).channels u

/-- The cube of a tracker that goes from one cube of four meters to the next is around both
positions. -/
theorem not_movesApart_next (userHash : String) (time : ℤ) :
    ¬ MovesApart .exact ((Tracker.new userHash time).move .exact ⟨0, ⟨1, 0, 0⟩, ⟨0, 0, 0⟩⟩)
      ⟨200, ⟨5, 0, 0⟩, ⟨0, 0, 0⟩⟩ := by
  intro happart
  have hat := at_move_new (A := .exact) userHash time ⟨0, ⟨1, 0, 0⟩, ⟨0, 0, 0⟩⟩
  have hlt : 0 < ((Tracker.new userHash time).move .exact
      ⟨0, ⟨1, 0, 0⟩, ⟨0, 0, 0⟩⟩).intervals.length := by
    rw [hat.length]
    decide
  have hget := List.getElem?_eq_getElem hlt
  have hscale := hat.named.logscale 0 _ hget
  have hcell : scale .exact (⟨1, 0, 0⟩ : Vector3 ℚ) 2 = ⟨0, 0, 0⟩ := by
    norm_num [scale, Vector3.map, Arithmetic.exact, truncate]
    decide
  have hcell' : scale .exact (⟨5, 0, 0⟩ : Vector3 ℚ) 2 = ⟨1, 0, 0⟩ := by
    norm_num [scale, Vector3.map, Arithmetic.exact, truncate]
    decide
  have hrenewed : Refreshed (decompose .exact (⟨5, 0, 0⟩ : Vector3 ℚ) 2) 0
      ((Tracker.new userHash time).move .exact ⟨0, ⟨1, 0, 0⟩, ⟨0, 0, 0⟩⟩).intervals 0 := by
    refine (hat.refreshed_iff _ (by decide)).mpr ⟨?_, .inl (decompose_length_pos _ _)⟩
    rw [hcell, hcell']
    decide
  -- three meters from the old position is the same cube as the new one
  have haround : ∀ (q : Vector3 ℚ), (∃ k ∈ steps, scale .exact
      ⟨Arithmetic.exact.shifted 2 k q.x, Arithmetic.exact.shifted 2 0 q.y,
        Arithmetic.exact.shifted 2 0 q.z⟩ 2 = ⟨1, 0, 0⟩) →
      listToString (decompose .exact ⟨5, 0, 0⟩ 2) ∈
        (surroundingSpaceNames .exact q 2 (2 + 1)).keys := by
    rintro q ⟨k, hk, hsame⟩
    refine mem_surroundingSpaceNames.mpr ⟨_, mem_surroundings.mpr
      ⟨k, hk, 0, by decide, 0, by decide, rfl⟩, ?_⟩
    exact listToString_decompose_inj.mpr ⟨rfl, by rw [hsame, hcell']⟩
  refine happart 0 _ hget (by rw [hat.minLevel]; exact hrenewed)
    (listToString (decompose .exact ⟨5, 0, 0⟩ 2)) ?_ ?_
  · rw [hat.spaces 0 _ hget, hscale]
    refine haround _ ⟨1, by decide, ?_⟩
    norm_num [scale, Vector3.map, Arithmetic.exact, truncate]
    decide
  · rw [hscale]
    refine haround _ ⟨0, by decide, ?_⟩
    norm_num [scale, Vector3.map, Arithmetic.exact, truncate]
    decide

/-- So the channel of that cube is interrupted. -/
theorem not_forall_keepsCommon :
    let agent : Agent := ⟨0, "key"⟩
    ¬ ∀ (updates before after : List (Update ℚ)) (u : Update ℚ), updates = before ++ u :: after →
      KeepsCommon .exact agent
        (before.foldl (track .exact agent) (Tracker.new "me" 0, ({} : Global Unit))) u := by
  intro agent hall
  have hserved := (served_new "me" 0 agent ({} : Global Unit)).track (A := .exact)
    ⟨0, ⟨1, 0, 0⟩, ⟨0, 0, 0⟩⟩
  refine not_movesApart_next "me" 0 ((keepsCommon_iff hserved.named hserved.channels _).mp ?_)
  exact hall _ [⟨0, ⟨1, 0, 0⟩, ⟨0, 0, 0⟩⟩] [] ⟨200, ⟨5, 0, 0⟩, ⟨0, 0, 0⟩⟩ rfl

end QuadSpaces

end Gwems
