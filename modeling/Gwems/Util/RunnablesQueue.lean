import Gwems.Library.Machine

/-!
# `RunnablesQueue`: the mailbox protocol

`org.gwems.util.RunnablesQueue` lets any thread enqueue a message with `run`. The first
message to arrive in an idle queue sets `isRunning` and hands the runner to the executor; the
runner drains the queue with `hasMore`, which clears `isRunning` in the same synchronized
block in which it finds the queue empty. `AgentRunnablesQueue` and `SessionRunnablesQueue`
override how the runner runs one message, inside the same loop and the same `try` block.

The machine below has one action for each synchronized body and for each move of a runner
between them, so a schedule is an arbitrary interleaving of producers with runners. Every
activation of the runner has a slot in `runners`; that there is at most one live activation
is a theorem (`mailbox_discipline`), not a feature of the state. How a message ends is part
of the action: the loop catches an `Exception`, and any other `Throwable` leaves `run`.
-/

namespace Gwems

/-- How the run of a message ends: normally, with an `Exception`, or with an `Error`. -/
inductive Outcome
  | returns
  | exception
  | error
deriving DecidableEq

/-- Where an activation of the runner is: handed to the executor, about to call `hasMore`,
executing a message, past the loop, or over. -/
inductive RunnerPhase (R : Type*)
  | scheduled
  | polling
  | executing (r : R)
  | finishing
  | ended
deriving DecidableEq

namespace RunnerPhase

variable {R : Type*}

/-- Scheduled or draining: `hasMore` has not returned null to it. -/
def live : RunnerPhase R → Bool
  | scheduled | polling | executing _ => true
  | finishing | ended => false

/-- Executing a message. -/
def busy : RunnerPhase R → Bool
  | executing _ => true
  | scheduled | polling | finishing | ended => false

theorem live_of_busy {p : RunnerPhase R} (h : p.busy = true) : p.live = true := by
  cases p <;> simp_all [busy, live]

end RunnerPhase

/-- A mailbox with the activations of its runner, and the messages enqueued and started so
far. -/
structure RunnablesQueue (R : Type*) where
  q : List R := []
  isRunning : Bool := false
  runners : List (RunnerPhase R) := []
  enqueued : List R := []
  started : List R := []
deriving DecidableEq

namespace RunnablesQueue

variable {R : Type*}

/-- `run(runnable)`: enqueue, and hand the runner to the executor if it is not running. -/
def run (s : RunnablesQueue R) (runnable : R) : RunnablesQueue R :=
  { s with
    q := s.q ++ [runnable]
    isRunning := true
    runners := if s.isRunning then s.runners else s.runners ++ [.scheduled]
    enqueued := s.enqueued ++ [runnable] }

/-- `hasMore()` called by activation `i`: take the first message and start it, or clear
`isRunning` and leave the loop. -/
def hasMore (s : RunnablesQueue R) (i : ℕ) : RunnablesQueue R :=
  match s.q with
  | r :: q => { s with q := q, runners := s.runners.set i (.executing r), started := s.started ++ [r] }
  -- null: this activation will not look at the queue again
  | [] => { s with isRunning := false, runners := s.runners.set i .finishing }

/-- What can happen next: a thread calls `run`, or an activation begins, calls `hasMore`,
ends its message, or returns. -/
inductive Action (R : Type*)
  | run (r : R)
  | begin (i : ℕ)
  | hasMore (i : ℕ)
  | finish (i : ℕ) (o : Outcome)
  | leave (i : ℕ)
deriving DecidableEq

/-- Where the loop goes after a message: the `catch` clause takes an `Exception` back to
`hasMore`, an `Error` ends the activation. -/
def afterMessage : Outcome → RunnerPhase R
  | .returns | .exception => .polling
  | .error => .ended

/-- The mailbox protocol. -/
def machine (R : Type*) : Machine (RunnablesQueue R) (Action R) where
  step s
    | .run r => some (s.run r)
    | .begin i =>
      match s.runners[i]? with
      | some .scheduled => some { s with runners := s.runners.set i .polling }
      | _ => none
    | .hasMore i =>
      -- the test of `q` and the reset of `isRunning` are one synchronized body
      match s.runners[i]? with
      | some .polling => some (s.hasMore i)
      | _ => none
    | .finish i o =>
      match s.runners[i]? with
      | some (.executing _) => some { s with runners := s.runners.set i (afterMessage o) }
      | _ => none
    | .leave i =>
      match s.runners[i]? with
      | some .finishing => some { s with runners := s.runners.set i .ended }
      | _ => none

/-- What one step can do: enqueue, drain, or move one activation from a phase to a phase. -/
theorem step_cases {s t : RunnablesQueue R} {a : Action R} (h : (machine R).step s a = some t) :
    (∃ r, a = .run r ∧ t = s.run r) ∨
      (∃ i, a = .hasMore i ∧ s.runners[i]? = some .polling ∧ t = s.hasMore i) ∨
      ∃ i p p', s.runners[i]? = some p ∧ t = { s with runners := s.runners.set i p' } ∧
        ((a = .begin i ∧ p = .scheduled ∧ p' = .polling) ∨
          (∃ r o, a = .finish i o ∧ p = .executing r ∧ p' = afterMessage o) ∨
          (a = .leave i ∧ p = .finishing ∧ p' = .ended)) := by
  cases a with
  | run r => exact .inl ⟨r, rfl, (Option.some.inj h).symm⟩
  | begin i =>
    simp only [machine] at h
    split at h
    next hp => exact .inr (.inr ⟨i, _, _, hp, (Option.some.inj h).symm, .inl ⟨rfl, rfl, rfl⟩⟩)
    next => cases h
  | hasMore i =>
    simp only [machine] at h
    split at h
    next hp => exact .inr (.inl ⟨i, rfl, hp, (Option.some.inj h).symm⟩)
    next => cases h
  | finish i o =>
    simp only [machine] at h
    split at h
    next r hp =>
      exact .inr (.inr ⟨i, _, _, hp, (Option.some.inj h).symm, .inr (.inl ⟨r, o, rfl, rfl, rfl⟩)⟩)
    next => cases h
  | leave i =>
    simp only [machine] at h
    split at h
    next hp => exact .inr (.inr ⟨i, _, _, hp, (Option.some.inj h).symm, .inr (.inr ⟨rfl, rfl, rfl⟩)⟩)
    next => cases h

/-! ### The invariant -/

/-- The number of live activations. -/
def liveCount (s : RunnablesQueue R) : ℕ := s.runners.countP RunnerPhase.live

/-- The number of activations that execute a message. -/
def busyCount (s : RunnablesQueue R) : ℕ := s.runners.countP RunnerPhase.busy

theorem busyCount_le_liveCount (s : RunnablesQueue R) : s.busyCount ≤ s.liveCount :=
  List.countP_mono_left fun _ _ => RunnerPhase.live_of_busy

/-- Moving one activation changes the number of those with a property by what the two phases
have of it. -/
theorem countP_set {l : List (RunnerPhase R)} {i : ℕ} {p : RunnerPhase R} (hp : l[i]? = some p)
    (P : RunnerPhase R → Bool) (p' : RunnerPhase R) :
    (l.set i p').countP P + (P p).toNat = l.countP P + (P p').toNat := by
  obtain ⟨hi, rfl⟩ := List.getElem?_eq_some_iff.mp hp
  rw [List.countP_set hi]
  cases hl : P l[i] with
  | false => cases P p' <;> simp
  | true =>
    have hpos : 0 < l.countP P := List.countP_pos_iff.mpr ⟨_, List.getElem_mem hi, hl⟩
    cases P p' <;> simp <;> omega

/-- Nothing is lost between the queue and the messages started; there is one live activation
while `isRunning` is set and none otherwise; an idle mailbox is empty. -/
structure Disciplined (s : RunnablesQueue R) : Prop where
  enqueued_eq : s.enqueued = s.started ++ s.q
  liveCount_eq : s.liveCount = s.isRunning.toNat
  q_eq_nil : s.isRunning = false → s.q = []

theorem disciplined_init : Disciplined ({} : RunnablesQueue R) := ⟨rfl, rfl, fun _ => rfl⟩

variable {s t : RunnablesQueue R}

theorem Disciplined.run (h : s.Disciplined) (r : R) : (s.run r).Disciplined := by
  refine ⟨?_, ?_, fun hf => absurd hf (by simp [RunnablesQueue.run])⟩
  · simp [RunnablesQueue.run, h.enqueued_eq]
  · have hcount := h.liveCount_eq
    cases hr : s.isRunning with
    | true => simpa [RunnablesQueue.run, liveCount, hr] using hcount
    | false =>
      rw [hr] at hcount
      simpa [RunnablesQueue.run, liveCount, hr, RunnerPhase.live] using hcount

/-- The lost wakeup is excluded here: the activation that finds the queue empty clears
`isRunning` and stops being live in one step. -/
theorem Disciplined.hasMore (h : s.Disciplined) {i : ℕ} (hi : s.runners[i]? = some .polling) :
    (s.hasMore i).Disciplined := by
  have hset := fun p' => countP_set hi RunnerPhase.live p'
  have hcount := h.liveCount_eq
  rw [RunnablesQueue.hasMore]
  split
  next r q hq =>
    have hexec := hset (.executing r)
    refine ⟨?_, ?_, fun hf => ?_⟩
    · simp [h.enqueued_eq, hq]
    · simp only [RunnerPhase.live, Bool.toNat_true] at hexec
      simp only [liveCount] at hcount ⊢
      omega
    · simpa [hq] using h.q_eq_nil hf
  next hq =>
    have hfin := hset .finishing
    refine ⟨by simp [h.enqueued_eq, hq], ?_, fun _ => hq⟩
    have hle := Bool.toNat_le s.isRunning
    simp only [RunnerPhase.live, Bool.toNat_true, Bool.toNat_false] at hfin
    simp only [liveCount, Bool.toNat_false] at hcount ⊢
    omega

/-- Moving an activation between phases that are equally live changes nothing else. -/
theorem Disciplined.set (h : s.Disciplined) {i : ℕ} {p p' : RunnerPhase R}
    (hi : s.runners[i]? = some p) (hlive : p'.live = p.live) :
    Disciplined { s with runners := s.runners.set i p' } := by
  have hset := countP_set hi RunnerPhase.live p'
  refine ⟨h.enqueued_eq, ?_, h.q_eq_nil⟩
  rw [hlive] at hset
  exact (Nat.add_right_cancel hset).trans h.liveCount_eq

/-- An activation that is handed to the executor executes nothing yet. -/
theorem busyCount_run (r : R) : (s.run r).busyCount = s.busyCount := by
  unfold busyCount RunnablesQueue.run
  split
  · rfl
  · simp [RunnerPhase.busy]

/-- There is at most one live activation, and none while `isRunning` is not set. -/
def Exclusive (s : RunnablesQueue R) : Prop := s.liveCount ≤ s.isRunning.toNat

/-- While an activation is between messages, no message is executing. -/
theorem Exclusive.busyCount_eq_zero (h : s.Exclusive) {i : ℕ} (hi : s.runners[i]? = some .polling) :
    s.busyCount = 0 := by
  have hlive := countP_set hi RunnerPhase.live .ended
  have hbusy := countP_set hi RunnerPhase.busy .ended
  have hle : (s.runners.set i .ended).countP RunnerPhase.busy ≤
      (s.runners.set i .ended).countP RunnerPhase.live :=
    List.countP_mono_left fun _ _ => RunnerPhase.live_of_busy
  have hone : s.liveCount ≤ 1 := h.trans (Bool.toNat_le _)
  simp only [RunnerPhase.live, RunnerPhase.busy, Bool.toNat_true, Bool.toNat_false] at hlive hbusy
  simp only [liveCount] at hone
  simp only [busyCount]
  omega

/-- Exclusion does not depend on how messages end: an activation that an `Error` ends leaves
`isRunning` set, and nobody takes its place. -/
theorem Exclusive.step {a : Action R} (h : s.Exclusive) (hst : (machine R).step s a = some t) :
    t.Exclusive := by
  have hle := Bool.toNat_le s.isRunning
  rw [Exclusive] at h ⊢
  obtain ⟨r, -, rfl⟩ | ⟨i, -, hi, rfl⟩ | ⟨i, p, p', hi, rfl, hmove⟩ := step_cases hst
  · cases hr : s.isRunning with
    | true => simpa [RunnablesQueue.run, liveCount, hr] using h
    | false => simpa [RunnablesQueue.run, liveCount, hr, RunnerPhase.live] using h
  · have hset := fun p' => countP_set hi RunnerPhase.live p'
    rw [RunnablesQueue.hasMore]
    split
    next r q hq =>
      have hexec := hset (.executing r)
      simp only [RunnerPhase.live, Bool.toNat_true] at hexec
      simp only [liveCount] at h ⊢
      omega
    next hq =>
      have hfin := hset .finishing
      simp only [RunnerPhase.live, Bool.toNat_true, Bool.toNat_false] at hfin
      simp only [liveCount, Bool.toNat_false] at h ⊢
      omega
  · -- no phase that an activation moves to is live when the old one was not
    have hset := countP_set hi RunnerPhase.live p'
    have hlive : p'.live.toNat ≤ p.live.toNat := by
      obtain ⟨-, rfl, rfl⟩ | ⟨r, o, -, rfl, rfl⟩ | ⟨-, rfl, rfl⟩ := hmove
      · exact le_refl 1
      · exact Bool.toNat_le _
      · exact le_refl 0
    simp only [liveCount] at h ⊢
    omega

/-- A message that ends without an `Error`. -/
def Action.Caught (a : Action R) : Prop := ∀ i, a ≠ .finish i .error

theorem Disciplined.step {a : Action R} (h : s.Disciplined) (ha : a.Caught)
    (hst : (machine R).step s a = some t) : t.Disciplined := by
  obtain ⟨r, -, rfl⟩ | ⟨i, -, hi, rfl⟩ | ⟨i, p, p', hi, rfl, hmove⟩ := step_cases hst
  · exact h.run r
  · exact h.hasMore hi
  · refine h.set hi ?_
    obtain ⟨-, rfl, rfl⟩ | ⟨r, o, rfl, rfl, rfl⟩ | ⟨-, rfl, rfl⟩ := hmove
    · rfl
    · cases o with
      | returns | exception => rfl
      | error => exact absurd rfl (ha i)
    · rfl

/-- **Mailbox discipline.** In every state reached by any interleaving of producers and
runners in which messages return or throw an `Exception`: the messages started are a prefix
of those enqueued and the rest is in the queue, at most one message is executing, `isRunning`
is set exactly when one activation is live, there are never two, and a non-empty queue is
running. -/
theorem mailbox_discipline (h : (machine R).Runs (fun _ a => a.Caught) {} s) :
    (s.started <+: s.enqueued ∧ s.enqueued = s.started ++ s.q) ∧ s.busyCount ≤ 1 ∧
      (s.isRunning = true ↔ s.liveCount = 1) ∧ s.liveCount ≤ 1 ∧
      (s.q ≠ [] → s.isRunning = true) := by
  have hs : s.Disciplined := h.invariant (fun ha hd hst => hd.step ha hst) disciplined_init
  have hle : s.liveCount ≤ 1 := hs.liveCount_eq ▸ Bool.toNat_le s.isRunning
  refine ⟨⟨⟨s.q, hs.enqueued_eq.symm⟩, hs.enqueued_eq⟩, s.busyCount_le_liveCount.trans hle, ?_, hle,
    fun hq => ?_⟩
  · rw [hs.liveCount_eq]
    cases s.isRunning <;> simp
  · by_contra hr
    exact hq (hs.q_eq_nil (Bool.eq_false_iff.mpr hr))

instance (a : Action R) : Decidable a.Caught :=
  match a with
  | .finish _ .error => isFalse fun h => h _ rfl
  | .finish _ .returns | .finish _ .exception => isTrue fun _ => nofun
  | .run _ | .begin _ | .hasMore _ | .leave _ => isTrue fun _ => nofun

/-- Two producers, a message that throws, and one that arrives while the runner shuts down. -/
theorem mailbox_discipline_two_producers :
    let s : RunnablesQueue ℕ :=
      { q := [3], isRunning := true, runners := [.ended, .scheduled], enqueued := [1, 2, 3],
        started := [1, 2] }
    (s.started <+: s.enqueued ∧ s.enqueued = s.started ++ s.q) ∧ s.busyCount ≤ 1 ∧
      (s.isRunning = true ↔ s.liveCount = 1) ∧ s.liveCount ≤ 1 ∧
      (s.q ≠ [] → s.isRunning = true) :=
  mailbox_discipline (Machine.Runs.of_restrict_run [.run 1, .begin 0, .hasMore 0, .run 2,
    .finish 0 .exception, .hasMore 0, .finish 0 .returns, .hasMore 0, .run 3, .leave 0]
    (by decide))

/-! ### Messages that end with an `Error` -/

/-- Messages that wait have an activation to run them. -/
def Served (s : RunnablesQueue R) : Prop := s.q ≠ [] → 0 < s.liveCount

/-- An `Error` is thrown only while nothing waits behind it, and nothing is enqueued where an
activation that is over has left `isRunning` set. -/
def Action.Spares (s : RunnablesQueue R) : Action R → Prop
  | .finish _ .error => s.q = []
  | .run _ => s.isRunning = true → 0 < s.liveCount
  | .finish _ .returns | .finish _ .exception | .begin _ | .hasMore _ | .leave _ => True

/-- What enqueueing leaves in the queue is served unless the activation is over. -/
theorem served_run_iff (r : R) :
    (s.run r).Served ↔ (s.isRunning = true → 0 < s.liveCount) := by
  cases hr : s.isRunning with
  | true => simp [Served, liveCount, RunnablesQueue.run, hr]
  | false => simp [Served, liveCount, RunnablesQueue.run, hr, RunnerPhase.live]

/-- An activation that calls `hasMore` leaves the queue empty or goes on. -/
theorem served_hasMore {i : ℕ} (hi : s.runners[i]? = some .polling) : (s.hasMore i).Served := by
  rw [RunnablesQueue.hasMore]
  split
  next r q hq =>
    intro _
    have hexec := countP_set hi RunnerPhase.live (.executing r)
    have hpos : 0 < s.runners.countP RunnerPhase.live :=
      List.countP_pos_iff.mpr ⟨_, List.mem_of_getElem? hi, rfl⟩
    simp only [RunnerPhase.live, Bool.toNat_true] at hexec
    simp only [liveCount]
    omega
  next hq => exact fun hne => absurd hq hne

/-- A move between phases that are equally live serves the queue as before. -/
theorem Served.set (h : s.Served) {i : ℕ} {p p' : RunnerPhase R} (hi : s.runners[i]? = some p)
    (hlive : p'.live = p.live) : Served { s with runners := s.runners.set i p' } := by
  have hset := countP_set hi RunnerPhase.live p'
  rw [hlive] at hset
  intro hq
  have hpos := h hq
  simp only [liveCount] at hpos ⊢
  omega

/-- The activation that an `Error` ends was the only one. -/
theorem Exclusive.served_error_iff (h : s.Exclusive) {i : ℕ} {r : R}
    (hi : s.runners[i]? = some (.executing r)) :
    Served { s with runners := s.runners.set i .ended } ↔ s.q = [] := by
  have hset := countP_set hi RunnerPhase.live .ended
  have hone : s.liveCount ≤ 1 := h.trans (Bool.toNat_le _)
  have hzero : (s.runners.set i .ended).countP RunnerPhase.live = 0 := by
    simp only [RunnerPhase.live, Bool.toNat_true, Bool.toNat_false] at hset
    simp only [liveCount] at hone
    omega
  simp [Served, liveCount, hzero]

/-- Where at most one activation is live and the queue is served, a step leaves it served exactly
if it spares the runner. -/
theorem served_step_iff {a : Action R} (hx : s.Exclusive) (h : s.Served)
    (hst : (machine R).step s a = some t) : t.Served ↔ a.Spares s := by
  obtain ⟨r, rfl, rfl⟩ | ⟨i, rfl, hi, rfl⟩ | ⟨i, p, p', hi, rfl, hmove⟩ := step_cases hst
  · exact served_run_iff r
  · exact iff_of_true (served_hasMore hi) trivial
  · obtain ⟨rfl, rfl, rfl⟩ | ⟨r, o, rfl, rfl, rfl⟩ | ⟨rfl, rfl, rfl⟩ := hmove
    · exact iff_of_true (h.set hi rfl) trivial
    · cases o with
      | returns | exception => exact iff_of_true (h.set hi rfl) trivial
      | error => exact hx.served_error_iff hi
    · exact iff_of_true (h.set hi rfl) trivial

/-- **When a mailbox survives.** Along any interleaving of producers and runners, with messages
that end in any way: a non-empty queue always has a runner that is scheduled or draining exactly
if no `Error` is thrown while messages wait, and nothing is enqueued after one. -/
theorem mailbox_survives_iff {as : List (Action R)} (h : (machine R).run {} as = some s) :
    (machine R).Throughout Served {} as ↔ (machine R).Along Action.Spares {} as :=
  Machine.throughout_iff_along (I := fun s => s.Exclusive ∧ s.Served) (P := Served) And.right
    (fun hG hI hst => ⟨hI.1.step hst, (served_step_iff hI.1 hI.2 hst).mpr hG⟩)
    (fun hG hI hst hP => hG ((served_step_iff hI.1 hI.2 hst).mp hP))
    ⟨Nat.le_refl 0, fun hq => absurd rfl hq⟩ h

/-- Exceptions are caught, and an `Error` of the last message does no harm while nothing else
comes. -/
theorem mailbox_survives_iff_last_message :
    let as : List (Action ℕ) := [.run 1, .run 2, .begin 0, .hasMore 0, .finish 0 .exception,
      .hasMore 0, .finish 0 .error]
    (machine ℕ).Throughout Served {} as ↔ (machine ℕ).Along Action.Spares {} as := by
  let s : RunnablesQueue ℕ :=
    { isRunning := true, runners := [.ended], enqueued := [1, 2], started := [1, 2] }
  exact mailbox_survives_iff (show _ = some s by decide)

/-- A script that overflows the stack, with a message behind it. -/
theorem message_stranded :
    ¬∀ s, (machine ℕ).Reaches {} s → s.q ≠ [] → 0 < s.liveCount := by
  intro h
  let s : RunnablesQueue ℕ :=
    { q := [2], isRunning := true, runners := [.ended], enqueued := [1, 2], started := [1] }
  have hrun : (machine ℕ).run {} [.run 1, .run 2, .begin 0, .hasMore 0, .finish 0 .error] =
      some s := by decide
  exact absurd (h s (.of_run hrun) (by decide)) (by decide)

end RunnablesQueue

end Gwems
