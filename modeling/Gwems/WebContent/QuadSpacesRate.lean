import Gwems.Library.Pace
import Gwems.WebContent.QuadSpacesTracker

/-!
# `QuadSpacesTracker.js`: how often a tracker sends its position

Every level has an interval, 200 ms on the smallest and twice as many on each above it. `update` is
called for every frame. It checks which levels "have timed out", sends the position for these, and
moves `nextSend` on by one interval from when it was due, not from the present time. So a tracker
that was not updated for a while, or that had no open socket, sends at every frame until it has made
up for the pause.

`sent_eq_beats` takes the messages of one level to the general statement about senders of this kind.
A level keeps its rate over every sequence of calls that find it late by no more than one interval
(`isLimited_of_onTime`).
-/

namespace Gwems

namespace QuadSpaces

open Pace (Beat beats IsLimited)

variable {α : Type*}

/-- A call of `update`, with or without an open socket. -/
structure Call (α : Type*) extends Update α where
  isOpen : Bool

/-- The tracker after a call. -/
def Tracker.called (A : Arithmetic α) (t : Tracker) (c : Call α) : Tracker :=
  (t.update A c.isOpen c.time c.position c.velocity).1

/-- A tracker from call to call. -/
def machine (A : Arithmetic α) : Machine Tracker (Call α) where
  step t c := some (t.called A c)

/-- A message that tells a position. -/
def TrackerMessage.isPosition : TrackerMessage α → Bool
  | .socket _ => false
  | .publish _ _ _ _ => true

/-- The position messages that a call sends, for all levels. -/
def Tracker.positions (A : Arithmetic α) (t : Tracker) (c : Call α) : List (TrackerMessage α) :=
  (t.update A c.isOpen c.time c.position c.velocity).2.filter TrackerMessage.isPosition

/-- "check for which ones have timed out". -/
def Level.isDue (time : ℤ) (level : Level) : Bool := level.nextSend < time

/-- The position messages that a call sends for level `i`. There is one for every level that is due,
in the order of the levels. -/
def Tracker.messages (A : Arithmetic α) (i : ℕ) (t : Tracker) (c : Call α) :
    List (TrackerMessage α) :=
  if t.intervals[i]?.elim false (Level.isDue c.time) then
    ((t.positions A c)[(t.intervals.take i).countP (Level.isDue c.time)]?).toList
  else []

/-- The times of the position messages for level `i`, over a sequence of calls. -/
def sentTimes (A : Arithmetic α) (i : ℕ) : Tracker → List (Call α) → List ℤ
  | _, [] => []
  | t, c :: rest => (t.messages A i c).map (fun _ => c.time) ++ sentTimes A i (t.called A c) rest

/-- The same with the times at which the messages were due, as the tracker has them before the
call. -/
def sent (A : Arithmetic α) (i : ℕ) : Tracker → List (Call α) → List Beat
  | _, [] => []
  | t, c :: rest =>
    let due := t.intervals[i]?.elim 0 Level.nextSend
    (t.messages A i c).map (fun _ => ⟨c.time, due⟩) ++ sent A i (t.called A c) rest

/-- The call finds level `i` late by no more than one interval. -/
def OnTime (i : ℕ) (t : Tracker) (c : Call α) : Prop :=
  c.isOpen = true → ∀ level ∈ t.intervals[i]?, c.time - level.nextSend ≤ level.interval

instance (i : ℕ) (t : Tracker) (c : Call α) : Decidable (OnTime i t c) :=
  inferInstanceAs (Decidable (_ → ∀ level ∈ t.intervals[i]?, _))

/-! ### The schedule of a level -/

/-- When a level sends next, and how often. -/
def Level.schedule (level : Level) : ℤ × ℤ := (level.nextSend, level.interval)

/-- Moving has no effect on schedules. -/
theorem schedule_refresh (A : Arithmetic α) (position : Vector3 α) (lodlist : List String)
    (intervals : List Level) (k : ℕ) (nextUnsubs nextSubscribedChannels : JsObject) :
    (refresh A position lodlist k intervals nextUnsubs nextSubscribedChannels).intervals.map
        Level.schedule = intervals.map Level.schedule := by
  induction intervals generalizing k nextUnsubs nextSubscribedChannels with
  | nil => rfl
  | cons level rest ih =>
    rw [refresh]
    split
    next =>
      rw [List.map_cons, List.map_cons, ih]
      rfl
    next => rfl

theorem getElem?_schedule {l m : List Level} (h : l.map Level.schedule = m.map Level.schedule)
    {i : ℕ} {level : Level} (hlevel : m[i]? = some level) :
    ∃ level', l[i]? = some level' ∧ level'.schedule = level.schedule := by
  have hget := congrArg (fun s => s[i]?) h
  simp only [List.getElem?_map, hlevel, Option.map_some] at hget
  exact Option.map_eq_some_iff.mp hget

theorem flatMap_eq_range_flatMap {β γ : Type*} (f : β → List γ) (l : List β) :
    l.flatMap f = (List.range l.length).flatMap fun i => l[i]?.elim [] f := by
  induction l with
  | nil => rfl
  | cons b l ih =>
    rw [List.length_cons, List.range_succ_eq_map, List.flatMap_cons, List.flatMap_cons,
      List.flatMap_map, ih]
    rfl

/-- Picking from a list what a test picked before. -/
theorem getElem?_filter {β : Type*} {p : β → Bool} {l : List β} {i : ℕ} {b : β}
    (hb : l[i]? = some b) (hp : p b = true) : (l.filter p)[(l.take i).countP p]? = some b := by
  have hdrop : l.drop i = b :: l.drop (i + 1) := by
    obtain ⟨hi, rfl⟩ := List.getElem?_eq_some_iff.mp hb
    exact List.drop_eq_getElem_cons hi
  have hsplit : l.filter p = (l.take i).filter p ++ b :: (l.drop (i + 1)).filter p := by
    rw [← List.filter_cons_of_pos hp, ← hdrop, ← List.filter_append, List.take_append_drop]
  rw [hsplit, List.countP_eq_length_filter, List.getElem?_append_right le_rfl, Nat.sub_self]
  rfl

section Calls

variable (A : Arithmetic α) {t : Tracker} {c : Call α}

/-- The levels after a move. -/
def Tracker.moved (t : Tracker) (c : Call α) : List Level :=
  (refresh A c.position (decompose A c.position t.minLevel) 0 t.intervals ∅ ∅).intervals

theorem schedule_moved :
    (t.moved A c).map Level.schedule = t.intervals.map Level.schedule :=
  schedule_refresh ..

/-- A closed socket takes nothing. -/
theorem positions_of_closed (hclosed : c.isOpen = false) : t.positions A c = [] := by
  simp [Tracker.positions, Tracker.update, hclosed]

/-- An open one gets a message for each level that is due. -/
theorem positions_of_open (hopen : c.isOpen = true) :
    t.positions A c = ((t.moved A c).filter (Level.isDue c.time)).map fun level =>
      .publish level.string c.position c.velocity t.userHash := by
  have hsockets : ∀ batch : List SocketMessage,
      (batch.map TrackerMessage.socket).filter (TrackerMessage.isPosition (α := α)) = [] := by
    intro batch
    rw [List.filter_map, List.map_eq_nil_iff]
    exact List.filter_eq_nil_iff.mpr fun _ _ => Bool.false_ne_true
  simp only [Tracker.positions, Tracker.update, hopen, Bool.true_eq_false, if_false,
    List.filter_append, hsockets, List.nil_append, publishDue]
  rw [Tracker.moved]
  generalize (refresh A c.position _ 0 t.intervals ∅ ∅).intervals = levels
  induction levels with
  | nil => rfl
  | cons level levels ih =>
    rw [List.flatMap_cons, List.filter_append, ih, List.filter_cons, Level.isDue]
    split
    next h =>
      rw [if_pos (decide_eq_true h)]
      rfl
    next h => simp [h]

theorem countP_moved (i : ℕ) (time : ℤ) :
    ((t.moved A c).take i).countP (Level.isDue time) =
      (t.intervals.take i).countP (Level.isDue time) := by
  have hcount : ∀ levels : List Level, levels.countP (Level.isDue time) =
      (levels.map Level.schedule).countP fun s => s.1 < time := by
    intro levels
    rw [List.countP_map]
    rfl
  rw [hcount, hcount, List.map_take, List.map_take, schedule_moved]

/-- The message for a level, if it is due. -/
def Level.message (t : Tracker) (c : Call α) (level : Level) : List (TrackerMessage α) :=
  if level.isDue c.time then [.publish level.string c.position c.velocity t.userHash] else []

theorem messages_of_open (hopen : c.isOpen = true) (i : ℕ) :
    t.messages A i c = (t.moved A c)[i]?.elim [] (Level.message t c) := by
  have hget := congrArg (fun s => s[i]?) (schedule_moved A (t := t) (c := c))
  simp only [List.getElem?_map] at hget
  rw [Tracker.messages, positions_of_open A hopen, ← countP_moved A]
  cases hmoved : (t.moved A c)[i]? with
  | none =>
    rw [hmoved, Option.map_none, eq_comm, Option.map_eq_none_iff] at hget
    rw [hget]
    rfl
  | some level =>
    rw [hmoved] at hget
    obtain ⟨before, hbefore, hschedule⟩ := Option.map_eq_some_iff.mp hget.symm
    have hnext : before.nextSend = level.nextSend := congrArg Prod.fst hschedule
    rw [hbefore, Option.elim_some, Option.elim_some, Level.message, Level.isDue, hnext,
      ← Level.isDue]
    split
    next hdue =>
      rw [List.getElem?_map, getElem?_filter hmoved hdue]
      rfl
    next => rfl

/-- **Every position is told for a level**: the messages of a call are those of its levels, one
level after the other. -/
theorem positions_eq_flatMap (t : Tracker) (c : Call α) :
    t.positions A c = (List.range t.intervals.length).flatMap fun i => t.messages A i c := by
  by_cases hopen : c.isOpen = true
  · have hlength := congrArg List.length (schedule_moved A (t := t) (c := c))
    rw [List.length_map, List.length_map] at hlength
    have hlevels : ∀ levels : List Level, (levels.filter (Level.isDue c.time)).map (fun level =>
        TrackerMessage.publish level.string c.position c.velocity t.userHash) =
          levels.flatMap (Level.message t c) := by
      intro levels
      induction levels with
      | nil => rfl
      | cons level levels ih =>
        rw [List.flatMap_cons, ← ih, Level.message, List.filter_cons]
        split <;> rfl
    simp only [messages_of_open A hopen]
    rw [positions_of_open A hopen, hlevels, ← hlength]
    exact flatMap_eq_range_flatMap _ _
  · have hclosed : c.isOpen = false := by simpa using hopen
    simp [Tracker.messages, positions_of_closed A hclosed]

/-- What a call does to one level: it sends when the level is due, and then the level is due one
interval later. -/
theorem getElem?_called (hopen : c.isOpen = true) {i : ℕ} {level : Level}
    (hlevel : t.intervals[i]? = some level) :
    ((t.messages A i c).length = if level.nextSend < c.time then 1 else 0) ∧
      ∃ level', (t.called A c).intervals[i]? = some level' ∧ level'.interval = level.interval ∧
        level'.nextSend =
          if level.nextSend < c.time then level.nextSend + level.interval else level.nextSend := by
  obtain ⟨moved, hmoved, hschedule⟩ := getElem?_schedule (schedule_moved A (c := c)) hlevel
  obtain ⟨hnext, hinterval⟩ := Prod.ext_iff.mp hschedule
  simp only [Level.schedule] at hnext hinterval
  refine ⟨?_, moved.sent c.time, ?_, ?_, ?_⟩
  · rw [messages_of_open A hopen, hmoved, Option.elim_some, Level.message, Level.isDue, hnext]
    simp only [decide_eq_true_eq]
    split <;> rfl
  · rw [Tracker.moved] at hmoved
    simp only [Tracker.called, Tracker.update, hopen, Bool.true_eq_false, if_false, publishDue,
      List.getElem?_map, hmoved, Option.map_some]
  · rw [Level.sent]
    split <;> exact hinterval
  · rw [Level.sent]
    rw [hnext]
    split
    next => rw [← hnext, ← hinterval]
    next => exact hnext

/-- A call with a closed socket does nothing. -/
theorem called_of_closed (hclosed : c.isOpen = false) (i : ℕ) :
    t.called A c = t ∧ t.messages A i c = [] := by
  refine ⟨by simp [Tracker.called, Tracker.update, hclosed], ?_⟩
  rw [Tracker.messages, positions_of_closed A hclosed]
  split <;> rfl

end Calls

/-! ### The rate of a level -/

/-- **A level sends at a pace.** -/
theorem sent_eq_beats (A : Arithmetic α) (i : ℕ) (calls : List (Call α)) {t : Tracker}
    {level : Level} (hlevel : t.intervals[i]? = some level) :
    sent A i t calls = beats level.interval level.nextSend
      ((calls.filter Call.isOpen).map fun c => c.time) := by
  induction calls generalizing t level with
  | nil => rfl
  | cons c calls ih =>
    rw [sent, hlevel, Option.elim_some, List.filter_cons]
    by_cases hopen : c.isOpen = true
    · obtain ⟨hlength, level', hlevel', hinterval, hnext⟩ := getElem?_called A hopen hlevel
      rw [if_pos hopen, List.map_cons, beats, ih hlevel', hinterval, hnext]
      split at hlength
      next hdue =>
        obtain ⟨message, hmessage⟩ := List.length_eq_one_iff.mp hlength
        rw [hmessage, if_pos hdue, if_pos hdue]
        rfl
      next hdue =>
        rw [List.length_eq_zero_iff.mp hlength, if_neg hdue, if_neg hdue]
        rfl
    · obtain ⟨hsame, hnone⟩ := called_of_closed A (t := t) (by simpa using hopen) i
      rw [if_neg hopen, hnone, hsame, ih hlevel]
      rfl

theorem map_time_sent (A : Arithmetic α) (i : ℕ) (t : Tracker) (calls : List (Call α)) :
    (sent A i t calls).map Beat.time = sentTimes A i t calls := by
  induction calls generalizing t with
  | nil => rfl
  | cons c calls ih => rw [sent, sentTimes, List.map_append, ih, List.map_map]; rfl

/-- The intervals of a new tracker. -/
theorem interval_new {userHash : String} {time : ℤ} {i : ℕ} {level : Level}
    (h : (Tracker.new userHash time).intervals[i]? = some level) :
    level.interval = 200 * 2 ^ i ∧ level.nextSend = time := by
  have hi := (getElem?_new h).1
  have hcount : (((14 : ℤ) - 2 + 1) / 2).toNat = 6 := by decide
  rw [Tracker.new, levels, hcount, List.getElem?_map, Option.map_eq_some_iff] at h
  obtain ⟨n, hn, rfl⟩ := h
  obtain ⟨hlt, hn⟩ := List.getElem?_eq_some_iff.mp hn
  rw [List.getElem_range] at hn
  subst hn
  have hint : ∀ m : ℕ, m < 6 → toInt32 (200 * 2 ^ m) = 200 * 2 ^ m := by decide
  refine ⟨?_, rfl⟩
  simp only
  exact hint _ hi

section Rate

variable {userHash : String} {time : ℤ} {calls : List (Call α)}

/-- The calls with an open socket are in order as well. -/
theorem pairwise_open (hsorted : (calls.map fun c => c.time).Pairwise (· ≤ ·)) :
    ((calls.filter Call.isOpen).map fun c => c.time).Pairwise (· ≤ ·) :=
  hsorted.sublist (List.filter_sublist.map _)

/-- Where every call finds a level late by no more than an interval, so is every message of it. -/
theorem lag_le_of_onTime (A : Arithmetic α) {i : ℕ} (calls : List (Call α)) {t : Tracker}
    {level : Level} (hlevel : t.intervals[i]? = some level)
    (honTime : (machine A).Along (OnTime i) t calls) :
    ∀ b ∈ sent A i t calls, b.lag ≤ level.interval := by
  induction calls generalizing t level with
  | nil => nofun
  | cons c calls ih =>
    obtain ⟨hcall, hrest⟩ := honTime
    have hrest := hrest _ rfl
    rw [sent, List.forall_mem_append, hlevel, Option.elim_some]
    by_cases hopen : c.isOpen = true
    · obtain ⟨-, level', hlevel', hinterval, -⟩ := getElem?_called A hopen hlevel
      refine ⟨fun b hb => ?_, hinterval ▸ ih hlevel' hrest⟩
      obtain ⟨-, -, rfl⟩ := List.mem_map.mp hb
      exact hcall hopen level hlevel
    · obtain ⟨hsame, hnone⟩ := called_of_closed A (t := t) (by simpa using hopen) i
      rw [hsame] at hrest
      rw [hnone, hsame]
      exact ⟨nofun, ih hlevel hrest⟩

/-- **The rate of a level is kept**, over all calls in the order of time that find the level late by
no more than one of its intervals: at most `n + 1` of the messages that the calls send for it are in
any window of `n` intervals. What `update` sends for the levels are all the positions it sends. -/
theorem isLimited_of_onTime (A : Arithmetic α) (userHash : String) (time : ℤ)
    (hsorted : (calls.map fun c => c.time).Pairwise (· ≤ ·)) (i : ℕ) (level : Level)
    (hlevel : (Tracker.new userHash time).intervals[i]? = some level)
    (honTime : (machine A).Along (OnTime i) (Tracker.new userHash time) calls) :
    IsLimited level.interval (sentTimes A i (Tracker.new userHash time) calls) ∧
      ∀ (t : Tracker) (c : Call α),
        t.positions A c = (List.range t.intervals.length).flatMap fun i => t.messages A i c := by
  refine ⟨?_, positions_eq_flatMap A⟩
  have hinterval : 0 ≤ level.interval := by
    rw [(interval_new hlevel).1]
    positivity
  have hlag := lag_le_of_onTime A calls hlevel honTime
  rw [sent_eq_beats A i calls hlevel] at hlag
  rw [← map_time_sent, sent_eq_beats A i calls hlevel]
  exact (Pace.isLimited_iff (pairwise_open hsorted) hinterval).mpr (Pace.keepsLag_of_lag_le hlag)

end Rate

/-- Frames at the given times, with an open socket. -/
def frames (times : List ℤ) : List (Call ℚ) := times.map fun time =>
  { time := time, position := .zero, velocity := .zero, isOpen := true }

theorem isLimited_of_onTime_frames :
    let level : Level := { nextSend := 0, interval := 200, logscale := 2 }
    IsLimited level.interval (sentTimes .exact 0 (Tracker.new "me" 0) (frames [100, 216])) := by
  have honTime : (machine .exact).Along (OnTime 0) (Tracker.new "me" 0) (frames [100, 216]) := by
    refine ⟨by decide, fun t ht => ?_⟩
    obtain rfl := Option.some.inj ht
    obtain ⟨-, level, hlevel, hinterval, hnext⟩ := getElem?_called .exact (t := Tracker.new "me" 0)
      (c := { time := 100, position := .zero, velocity := .zero, isOpen := true }) rfl (i := 0) rfl
    refine ⟨fun _ level' hlevel' => ?_, fun _ _ => trivial⟩
    obtain rfl := Option.some.inj (hlevel.symm.trans hlevel')
    rw [hinterval, hnext]
    decide
  exact (isLimited_of_onTime .exact "me" 0 (by decide) 0 _ rfl honTime).1

/-- Three frames, the first of them a second after the tracker was made, make three messages within
the interval of 200 ms. -/
theorem not_forall_isLimited :
    ¬ ∀ calls : List (Call ℚ), (calls.map fun c => c.time).Pairwise (· ≤ ·) →
      ∀ i level, (Tracker.new "me" 0).intervals[i]? = some level →
        IsLimited level.interval (sentTimes .exact i (Tracker.new "me" 0) calls) := by
  intro hall
  obtain ⟨level, hlevel⟩ : ∃ level, (Tracker.new "me" 0).intervals[0]? = some level := ⟨_, rfl⟩
  have hlimited := hall (frames [1000, 1016, 1032]) (by decide) 0 level hlevel
  obtain ⟨hinterval, hnext⟩ := interval_new hlevel
  rw [← map_time_sent, sent_eq_beats _ _ _ hlevel, hinterval, hnext] at hlimited
  exact absurd (hlimited 1 le_rfl 1000) (by decide)

end QuadSpaces

end Gwems
