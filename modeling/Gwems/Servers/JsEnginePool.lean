import Gwems.Library.Machine

/-!
# `JsEnginePool`: script engines shared by executions

`Js.run` takes a script engine from the pool of its server, evaluates its script, and gives the
engine back in a finally block. `JsEnginePool.get` creates an engine when the list is empty, and
otherwise returns the last one of the list, without taking it out.

The machine interleaves any number of executions of `Js.run`; each call on the (synchronized) list is
one step. An engine is identified by the number of engines created before it.

`engines_exclusive_iff` says when engines are borrowed exclusively: exactly as long as no execution
gets to `engines.get(engines.size() - 1)`, that is, as long as every execution finds the list empty.
-/

namespace Gwems

/-- Where an execution of `Js.run` is: in `get`, before the test of `engines.size()`, in `create`,
before the second `engines.size()` or before `engines.get` with the index; in the evaluation; before
the end of the finally block, with the engine it will give back (null without one); or finished. -/
inductive JsRun
  | testing
  | creating
  | picking
  | getting (index : ℕ)
  | evaluating (engine : ℕ)
  | returning (engine : Option ℕ)
  | finished
deriving DecidableEq

/-- The engine that an execution holds. -/
def JsRun.engine : JsRun → Option ℕ
  | evaluating engine => some engine
  | returning engine => engine
  | testing | creating | picking | getting _ | finished => none

/-- The list of the pool, how many engines have been created, and the executions of `Js.run`. -/
structure JsEnginePool where
  engines : List ℕ := []
  created : ℕ := 0
  runs : List JsRun := []
deriving DecidableEq

namespace JsEnginePool

/-- `Js.run()` starts. Without an agent it logs an error and gets to its finally block. -/
def start (s : JsEnginePool) (hasAgent : Bool) : JsEnginePool :=
  { s with runs := s.runs ++ [if hasAgent then .testing else .returning none] }

/-- `giveBack(engine)`, behind the test of `returnEngine`. -/
def giveBack (s : JsEnginePool) : Option ℕ → JsEnginePool
  | some engine => { s with engines := s.engines ++ [engine] }
  | none => s

/-- The next step of an execution. `create` may throw, and then nothing has been borrowed; however
the evaluation ends, the finally block comes next. -/
def next (s : JsEnginePool) (returns : Bool) : JsRun → Option (JsEnginePool × JsRun)
  | .testing => some (s, if s.engines.length = 0 then .creating else .picking)
  | .creating =>
    if returns then some ({ s with created := s.created + 1 }, .evaluating s.created)
    else some (s, .returning none)
  | .picking => some (s, .getting (s.engines.length - 1))
  -- the engine stays in the list
  | .getting index => some (s, s.engines[index]?.elim (.returning none) .evaluating)
  | .evaluating engine => some (s, .returning (some engine))
  | .returning engine => some (s.giveBack engine, .finished)
  | .finished => none

/-- What can happen next: an execution of `Js.run` starts, or one makes its next step. -/
inductive Action
  | start (hasAgent : Bool)
  | next (i : ℕ) (returns : Bool)
deriving DecidableEq

/-- Executions of `Js.run` in any order. -/
def machine : Machine JsEnginePool Action where
  step s
    | .start hasAgent => some (s.start hasAgent)
    | .next i returns =>
      s.runs[i]?.bind fun p => (s.next returns p).map fun (s', p') =>
        { s' with runs := s.runs.set i p' }

/-! ### Exclusive borrowing -/

/-- Execution `i` holds the engine. -/
def Holds (s : JsEnginePool) (i engine : ℕ) : Prop :=
  ∃ p, s.runs[i]? = some p ∧ p.engine = some engine

/-- No two executions hold one engine, and the list has each engine once, none that is held, and no
more than have been created. -/
structure Exclusive (s : JsEnginePool) : Prop where
  eq_of_holds : ∀ i j e, s.Holds i e → s.Holds j e → i = j
  nodup : s.engines.Nodup
  not_holds : ∀ e ∈ s.engines, ∀ i, ¬s.Holds i e
  length_le : s.engines.length ≤ s.created

/-- The list does not shrink, so that an execution that has found an engine there will get one. -/
structure Sound (s : JsEnginePool) : Prop extends Exclusive s where
  lt_created : ∀ e, (e ∈ s.engines ∨ ∃ i, s.Holds i e) → e < s.created
  ne_nil : .picking ∈ s.runs → s.engines ≠ []
  lt_length : ∀ index, .getting index ∈ s.runs → index < s.engines.length

theorem sound_init : Sound {} where
  eq_of_holds := by simp [Holds]
  nodup := List.nodup_nil
  not_holds := by simp
  length_le := Nat.le_refl 0
  lt_created := by simp [Holds]
  ne_nil := by simp
  lt_length := by simp

variable {s t : JsEnginePool} {i : ℕ} {p p' : JsRun}

/-- Moving one execution changes what it holds. -/
theorem holds_set_iff {s' : JsEnginePool} (hp : s.runs[i]? = some p) {j e : ℕ}
    (hs : s'.runs = s.runs.set i p') :
    s'.Holds j e ↔ (j = i ∧ p'.engine = some e) ∨ (j ≠ i ∧ s.Holds j e) := by
  have hi : i < s.runs.length := (List.getElem?_eq_some_iff.mp hp).1
  unfold Holds
  rw [hs]
  by_cases hj : j = i
  · subst hj
    simp [List.getElem?_set_self hi]
  · simp [List.getElem?_set_ne (Ne.symm hj), hj]

/-- A list of different engines among those created is not longer than their number. -/
theorem length_le_of_lt {l : List ℕ} {n : ℕ} (hl : l.Nodup) (hlt : ∀ e ∈ l, e < n) :
    l.length ≤ n := by
  have hsub : l.toFinset ⊆ Finset.range n := fun e he => by
    simpa using hlt e (List.mem_toFinset.mp he)
  simpa [List.toFinset_card_of_nodup hl] using Finset.card_le_card hsub

theorem Sound.start (h : s.Sound) (hasAgent : Bool) : (s.start hasAgent).Sound := by
  have hholds : ∀ j e, (s.start hasAgent).Holds j e ↔ s.Holds j e := by
    intro j e
    unfold Holds JsEnginePool.start
    rw [List.getElem?_append]
    split
    · exact Iff.rfl
    next hj =>
      have hnone : s.runs[j]? = none := List.getElem?_eq_none (by omega)
      rw [hnone, List.getElem?_singleton]
      split <;> cases hasAgent <;> simp [JsRun.engine]
  have hmem : ∀ q, q ≠ .testing → q ≠ .returning none → q ∈ (s.start hasAgent).runs →
      q ∈ s.runs := by
    intro q h1 h2 hq
    rcases List.mem_append.mp hq with hq | hq
    · exact hq
    · cases hasAgent <;> simp_all
  refine ⟨⟨?_, h.nodup, ?_, h.length_le⟩, ?_, fun hq => h.ne_nil (hmem _ nofun nofun hq),
    fun index hq => h.lt_length index (hmem _ nofun nofun hq)⟩
  · exact fun j k e hj hk => h.eq_of_holds j k e ((hholds j e).mp hj) ((hholds k e).mp hk)
  · exact fun e he j hj => h.not_holds e he j ((hholds j e).mp hj)
  · exact fun e he => h.lt_created e (he.imp_right fun ⟨j, hj⟩ => ⟨j, (hholds j e).mp hj⟩)

/-- A step that neither borrows nor gives back. -/
theorem Sound.set (h : s.Sound) (hp : s.runs[i]? = some p) (hengine : p'.engine = p.engine)
    (hpicking : p' = .picking → s.engines ≠ [])
    (hgetting : ∀ index, p' = .getting index → index < s.engines.length) :
    Sound { s with runs := s.runs.set i p' } := by
  have hholds : ∀ j e, Holds { s with runs := s.runs.set i p' } j e ↔ s.Holds j e := by
    intro j e
    rw [holds_set_iff hp rfl, hengine]
    by_cases hj : j = i
    · subst hj
      simp [Holds, hp]
    · simp [hj]
  refine ⟨⟨?_, h.nodup, ?_, h.length_le⟩, ?_, fun hq => ?_, fun index hq => ?_⟩
  · simpa only [hholds] using h.eq_of_holds
  · simpa only [hholds] using h.not_holds
  · simpa only [hholds] using h.lt_created
  · rcases List.mem_or_eq_of_mem_set hq with hq | hq
    · exact h.ne_nil hq
    · exact hpicking hq.symm
  · rcases List.mem_or_eq_of_mem_set hq with hq | hq
    · exact h.lt_length index hq
    · exact hgetting index hq.symm

/-- A new engine is not one of those created before. -/
theorem Sound.create (h : s.Sound) (hp : s.runs[i]? = some p) :
    Sound { s with created := s.created + 1, runs := s.runs.set i (.evaluating s.created) } := by
  have hholds : ∀ j e, Holds { s with
      created := s.created + 1, runs := s.runs.set i (.evaluating s.created) } j e ↔
        (j = i ∧ s.created = e) ∨ (j ≠ i ∧ s.Holds j e) := by
    intro j e
    rw [holds_set_iff hp rfl, JsRun.engine, Option.some.injEq]
  have hfresh : ∀ j, ¬s.Holds j s.created := fun j hj =>
    absurd (h.lt_created _ (.inr ⟨j, hj⟩)) (lt_irrefl _)
  refine ⟨⟨?_, h.nodup, ?_, Nat.le_succ_of_le h.length_le⟩, ?_, fun hq => ?_, fun index hq => ?_⟩
  · intro j k e hj hk
    rw [hholds] at hj hk
    rcases hj with ⟨rfl, rfl⟩ | ⟨hji, hj⟩ <;> rcases hk with ⟨rfl, hk⟩ | ⟨hki, hk⟩
    · rfl
    · exact absurd hk (hfresh k)
    · exact absurd (hk ▸ hj) (hfresh j)
    · exact h.eq_of_holds j k e hj hk
  · intro e he j hj
    rw [hholds] at hj
    rcases hj with ⟨-, rfl⟩ | ⟨-, hj⟩
    · exact absurd (h.lt_created _ (.inl he)) (lt_irrefl _)
    · exact h.not_holds e he j hj
  · rintro e (he | ⟨j, hj⟩)
    · exact Nat.lt_succ_of_lt (h.lt_created e (.inl he))
    · rw [hholds] at hj
      rcases hj with ⟨-, rfl⟩ | ⟨-, hj⟩
      · exact Nat.lt_succ_self _
      · exact Nat.lt_succ_of_lt (h.lt_created e (.inr ⟨j, hj⟩))
  · rcases List.mem_or_eq_of_mem_set hq with hq | hq
    · exact h.ne_nil hq
    · cases hq
  · rcases List.mem_or_eq_of_mem_set hq with hq | hq
    · exact h.lt_length index hq
    · cases hq

/-- The engine that an execution gives back is not in the list, and nobody else holds it. -/
theorem Sound.giveBack (h : s.Sound) {engine : ℕ}
    (hp : s.runs[i]? = some (.returning (some engine))) :
    Sound { s with engines := s.engines ++ [engine], runs := s.runs.set i .finished } := by
  have hheld : s.Holds i engine := ⟨_, hp, rfl⟩
  have hholds : ∀ j e, Holds { s with
      engines := s.engines ++ [engine], runs := s.runs.set i .finished } j e ↔
        j ≠ i ∧ s.Holds j e := by
    intro j e
    rw [holds_set_iff hp rfl]
    simp [JsRun.engine]
  have hlt : ∀ e ∈ s.engines ++ [engine], e < s.created := by
    intro e he
    rcases List.mem_append.mp he with he | he
    · exact h.lt_created e (.inl he)
    · exact h.lt_created e (.inr ⟨i, List.mem_singleton.mp he ▸ hheld⟩)
  have hnodup : (s.engines ++ [engine]).Nodup :=
    List.nodup_append.mpr ⟨h.nodup, List.nodup_singleton _, fun e he e' he' heq =>
      h.not_holds e he i (heq.trans (List.mem_singleton.mp he') ▸ hheld)⟩
  refine ⟨⟨?_, hnodup, ?_, length_le_of_lt hnodup hlt⟩, ?_, fun _ => by simp, fun index hq => ?_⟩
  · intro j k e hj hk
    exact h.eq_of_holds j k e ((hholds j e).mp hj).2 ((hholds k e).mp hk).2
  · intro e he j hj
    obtain ⟨hji, hj⟩ := (hholds j e).mp hj
    rcases List.mem_append.mp he with he | he
    · exact h.not_holds e he j hj
    · exact hji (h.eq_of_holds j i e hj (List.mem_singleton.mp he ▸ hheld))
  · rintro e (he | ⟨j, hj⟩)
    · exact hlt e he
    · exact h.lt_created e (.inr ⟨j, ((hholds j e).mp hj).2⟩)
  · rcases List.mem_or_eq_of_mem_set hq with hq | hq
    · exact (h.lt_length index hq).trans_le (by simp)
    · cases hq

/-- What one step can do. -/
theorem step_cases {a : Action} (h : machine.step s a = some t) :
    (∃ hasAgent, a = .start hasAgent ∧ t = s.start hasAgent) ∨
      ∃ i returns p s' p', a = .next i returns ∧ s.runs[i]? = some p ∧
        s.next returns p = some (s', p') ∧ t = { s' with runs := s.runs.set i p' } := by
  cases a with
  | start hasAgent => exact .inl ⟨hasAgent, rfl, (Option.some.inj h).symm⟩
  | next i returns =>
    obtain ⟨p, hp, h⟩ := Option.bind_eq_some_iff.mp h
    obtain ⟨⟨s', p'⟩, hnext, rfl⟩ := Option.map_eq_some_iff.mp h
    exact .inr ⟨i, returns, p, s', p', rfl, hp, hnext, rfl⟩

/-- The execution whose step it is does not take an engine that the list keeps. -/
def Action.TakesNone (s : JsEnginePool) : Action → Prop
  | .start _ => True
  | .next i _ => ∀ index, s.runs[i]? ≠ some (.getting index)

theorem Sound.step {a : Action} (hG : a.TakesNone s) (h : s.Sound)
    (hst : machine.step s a = some t) : t.Sound := by
  obtain ⟨hasAgent, rfl, rfl⟩ | ⟨i, returns, p, s', p', rfl, hp, hnext, rfl⟩ := step_cases hst
  · exact h.start hasAgent
  · cases p with
    | testing =>
      cases hnext
      refine h.set hp ?_ (fun hpick => ?_) fun index hget => ?_
      · split <;> rfl
      · split at hpick
        next => cases hpick
        next hne => exact fun hnil => hne (hnil ▸ rfl)
      · split at hget <;> cases hget
    | creating =>
      cases returns with
      | true => cases hnext; exact h.create hp
      | false => cases hnext; exact h.set hp rfl nofun nofun
    | picking =>
      cases hnext
      refine h.set hp rfl nofun fun index hget => ?_
      cases hget
      have hpos := List.length_pos_iff.mpr (h.ne_nil (List.mem_of_getElem? hp))
      omega
    | getting index => exact absurd hp (hG index)
    | evaluating engine => cases hnext; exact h.set hp rfl nofun nofun
    | returning engine =>
      cases engine with
      | some engine => cases hnext; exact h.giveBack hp
      | none => cases hnext; exact h.set hp rfl nofun nofun
    | finished => cases hnext

/-- An execution that takes an engine which the list keeps shares it with the list. -/
theorem Sound.not_exclusive {a : Action} (hG : ¬a.TakesNone s) (h : s.Sound)
    (hst : machine.step s a = some t) : ¬t.Exclusive := by
  obtain ⟨hasAgent, rfl, -⟩ | ⟨i, returns, p, s', p', rfl, hp, hnext, rfl⟩ := step_cases hst
  · exact absurd trivial hG
  · simp only [Action.TakesNone, not_forall, not_not] at hG
    obtain ⟨index, hget⟩ := hG
    obtain rfl := Option.some.inj (hp.symm.trans hget)
    have hlt := h.lt_length index (List.mem_of_getElem? hp)
    simp only [next, List.getElem?_eq_getElem hlt, Option.elim_some] at hnext
    cases hnext
    intro hx
    refine hx.not_holds _ (List.getElem_mem hlt) i ?_
    exact (holds_set_iff hp rfl).mpr (.inl ⟨rfl, rfl⟩)

/-- **When engines are borrowed exclusively.** Along any interleaving of executions of `Js.run`,
whatever throws: no two executions hold one engine and the list holds no engine twice, none that is
borrowed and no more than were created, exactly if no execution takes an engine from the list. -/
theorem engines_exclusive_iff {as : List Action} (h : machine.run {} as = some s) :
    machine.Throughout Exclusive {} as ↔ machine.Along Action.TakesNone {} as :=
  Machine.throughout_iff_along (I := Sound) (P := Exclusive) Sound.toExclusive
    (fun hG hI hst => hI.step hG hst) (fun hG hI hst => hI.not_exclusive hG hst) sound_init h

/-- Two executions that both find the list empty, one of which fails to create an engine. -/
theorem engines_exclusive_iff_two_runs :
    let as : List Action := [.start true, .start true, .next 0 true, .next 1 true, .next 0 true,
      .next 1 false, .next 0 false, .next 1 true, .next 0 true]
    machine.Throughout Exclusive {} as ↔ machine.Along Action.TakesNone {} as := by
  let s : JsEnginePool := { engines := [0], created := 1, runs := [.finished, .finished] }
  exact engines_exclusive_iff (show _ = some s by decide)

/-- Behind one execution that has given its engine back, two others borrow it at the same time. -/
theorem engine_shared : ¬∀ s, machine.Reaches {} s → s.Exclusive := by
  intro h
  let s : JsEnginePool :=
    { engines := [0], created := 1, runs := [.finished, .evaluating 0, .evaluating 0] }
  have hrun : machine.run {} [.start true, .next 0 true, .next 0 true, .next 0 true, .next 0 true,
      .start true, .start true, .next 1 true, .next 2 true, .next 1 true, .next 2 true,
      .next 1 true, .next 2 true] = some s := by decide
  exact absurd ((h s (.of_run hrun)).eq_of_holds 1 2 0 ⟨_, rfl, rfl⟩ ⟨_, rfl, rfl⟩) (by decide)

end JsEnginePool

end Gwems
