import Mathlib

/-!
# Labelled transition systems with an executable step

A `Machine` is a state type, a type of actions and a partial step function: `step s a` is
`none` when the action `a` is not enabled in `s`. Every source of nondeterminism (which
thread moves, what a callee answers, how far the clock advances) is part of the action, so a
schedule is a list of actions and a run is a computation.

* `Machine.run` executes a schedule.
* `Machine.Runs G s t` is reachability through steps that meet a guard `G`, a condition on
  the state *before* the step and on the action; `Machine.Reaches` is the unguarded case.
* `Machine.restrict G` is the machine in which the other steps are not enabled: its
  executable runs are guarded runs (`Runs.of_restrict_run`).

The two induction rules are `Runs.invariant` (what one step preserves, a whole run
preserves) and `Machine.exists_stuck` (a machine without infinite runs gets stuck). A guard
that is exactly what a property needs is recognized by `Machine.throughout_iff_along`.

A state with any number of processes keeps them in slots; `exists_mem_set_iff_others` says
what moving one of them does to "some process is at …".

An `Object` is the sequential counterpart: every call is answered. `Object.calls_refines` is
data refinement: two objects whose related states answer one call alike, and stay related,
answer every sequence of calls alike.
-/

namespace Gwems

/-- A labelled transition system: `step s a` is the state after the action `a`, or `none`
where `a` is not enabled. -/
structure Machine (σ α : Type*) where
  step : σ → α → Option σ

namespace Machine

variable {σ α : Type*} (m : Machine σ α) (G : σ → α → Prop)

/-- Execute a schedule, action by action; `none` at the first action that is not enabled. -/
def run (s : σ) : List α → Option σ
  | [] => some s
  | a :: as => (m.step s a).bind fun t => run t as

@[simp] theorem run_nil (s : σ) : m.run s [] = some s := rfl

theorem run_cons (s : σ) (a : α) (as : List α) :
    m.run s (a :: as) = (m.step s a).bind fun t => m.run t as := rfl

/-- `m.Runs G s t`: the state `t` is reached from `s` by steps that all meet the guard `G` in
the state they leave. -/
inductive Runs (s : σ) : σ → Prop
  | refl : Runs s s
  | tail {t u : σ} {a : α} : Runs s t → G t a → m.step t a = some u → Runs s u

/-- Reachability by arbitrary steps. -/
def Reaches (s t : σ) : Prop := m.Runs (fun _ _ => True) s t

/-- Every action of a schedule meets the guard in the state in which it is executed. -/
def Along (s : σ) : List α → Prop
  | [] => True
  | a :: as => G s a ∧ ∀ t ∈ m.step s a, Along t as

instance decidableAlong [∀ s a, Decidable (G s a)] :
    ∀ (s : σ) (as : List α), Decidable (m.Along G s as)
  | _, [] => isTrue trivial
  | s, a :: as =>
    letI := fun t => decidableAlong t as
    inferInstanceAs (Decidable (G s a ∧ ∀ t ∈ m.step s a, m.Along G t as))

/-- Every state of a schedule has the property, the first and the last one included. -/
def Throughout (P : σ → Prop) (s : σ) : List α → Prop
  | [] => P s
  | a :: as => P s ∧ ∀ t ∈ m.step s a, Throughout P t as

/-- The machine in which only the steps that meet the guard are enabled. -/
def restrict [∀ s a, Decidable (G s a)] : Machine σ α where
  step s a := if G s a then m.step s a else none

variable {m} {G} {G' : σ → α → Prop} {s t u : σ}

theorem Runs.head {a : α} (hG : G s a) (hs : m.step s a = some t) (h : m.Runs G t u) :
    m.Runs G s u := by
  induction h with
  | refl => exact .tail .refl hG hs
  | tail _ hG' hs' ih => exact ih.tail hG' hs'

theorem Runs.trans (h : m.Runs G s t) (h' : m.Runs G t u) : m.Runs G s u := by
  induction h' with
  | refl => exact h
  | tail _ hG hs ih => exact ih.tail hG hs

/-- A weaker guard allows more runs. -/
theorem Runs.mono (hGG' : ∀ s a, G s a → G' s a) (h : m.Runs G s t) : m.Runs G' s t := by
  induction h with
  | refl => exact .refl
  | tail _ hG hs ih => exact ih.tail (hGG' _ _ hG) hs

/-- Every guarded run is a run. -/
theorem Runs.reaches (h : m.Runs G s t) : m.Reaches s t := h.mono fun _ _ _ => trivial

/-- **Invariant rule.** What every guarded step preserves holds at the end of every guarded
run that starts with it. -/
theorem Runs.invariant {I : σ → Prop}
    (hstep : ∀ {t u : σ} {a : α}, G t a → I t → m.step t a = some u → I u)
    (h : m.Runs G s t) (hs : I s) : I t := by
  induction h with
  | refl => exact hs
  | tail _ hG hst ih => exact hstep hG ih hst

/-- A guard that an invariant makes stronger. -/
theorem Runs.strengthen {I : σ → Prop}
    (hstep : ∀ {t u : σ} {a : α}, G t a → I t → m.step t a = some u → I u)
    (hG : ∀ {t : σ} {a : α}, I t → G t a → G' t a) (h : m.Runs G s t) (hs : I s) :
    m.Runs G' s t := by
  induction h with
  | refl => exact .refl
  | tail ht hGt hst ih => exact ih.tail (hG (ht.invariant hstep hs) hGt) hst

/-- The invariant rule for arbitrary runs. -/
theorem Reaches.invariant {I : σ → Prop}
    (hstep : ∀ {t u : σ} {a : α}, I t → m.step t a = some u → I u)
    (h : m.Reaches s t) (hs : I s) : I t :=
  Runs.invariant (fun _ => hstep) h hs

theorem Reaches.refl : m.Reaches s s := Runs.refl

theorem Reaches.tail {a : α} (h : m.Reaches s t) (hs : m.step t a = some u) : m.Reaches s u :=
  Runs.tail h trivial hs

theorem Reaches.head {a : α} (hs : m.step s a = some t) (h : m.Reaches t u) :
    m.Reaches s u :=
  Runs.head trivial hs h

/-! ### Schedules -/

/-- A schedule is executed step by step. -/
theorem run_cons_eq_some {a : α} {as : List α} :
    m.run s (a :: as) = some t ↔ ∃ u, m.step s a = some u ∧ m.run u as = some t := by
  rw [run_cons, Option.bind_eq_some_iff]

theorem run_cons_of_step {a : α} (h : m.step s a = some u) (as : List α) :
    m.run s (a :: as) = m.run u as := by
  rw [run_cons, h, Option.bind_some]

/-- A schedule that starts with a given step. -/
theorem along_cons_of_step {a : α} (h : m.step s a = some u) (as : List α) :
    m.Along G s (a :: as) ↔ G s a ∧ m.Along G u as := by
  rw [Along, h]
  exact and_congr_right fun _ => ⟨fun hall => hall u rfl, fun hu _ ht => Option.some.inj ht ▸ hu⟩

theorem along_and {as : List α} (h : m.Along G s as) (h' : m.Along G' s as) :
    m.Along (fun s a => G s a ∧ G' s a) s as := by
  induction as generalizing s with
  | nil => trivial
  | cons a as ih => exact ⟨⟨h.1, h'.1⟩, fun t ht => ih (h.2 t ht) (h'.2 t ht)⟩

theorem throughout_cons_of_step {P : σ → Prop} {a : α} (h : m.step s a = some u) (as : List α) :
    m.Throughout P s (a :: as) ↔ P s ∧ m.Throughout P u as := by
  rw [Throughout, h]
  exact and_congr_right fun _ => ⟨fun hall => hall u rfl, fun hu _ ht => Option.some.inj ht ▸ hu⟩

/-- An executed schedule is a run. -/
theorem Reaches.of_run {as : List α} (h : m.run s as = some t) : m.Reaches s t := by
  induction as generalizing s with
  | nil => rw [run_nil, Option.some.injEq] at h; subst h; exact .refl
  | cons a as ih =>
    obtain ⟨r, hr, hrun⟩ := run_cons_eq_some.mp h
    exact .head hr (ih hrun)

/-- A schedule that meets the guard throughout is a guarded run. -/
theorem Runs.of_along {as : List α} (hG : m.Along G s as) (h : m.run s as = some t) :
    m.Runs G s t := by
  induction as generalizing s with
  | nil => rw [run_nil, Option.some.injEq] at h; subst h; exact .refl
  | cons a as ih =>
    obtain ⟨r, hr, hrun⟩ := run_cons_eq_some.mp h
    exact .head hG.1 hr (ih (hG.2 r hr) hrun)

/-- A schedule that breaks the guard somewhere splits at the first such step. -/
theorem exists_of_not_along {as : List α} (hG : ¬m.Along G s as) (h : m.run s as = some t) :
    ∃ u v a, m.Reaches s u ∧ ¬G u a ∧ m.step u a = some v ∧ m.Reaches v t := by
  induction as generalizing s with
  | nil => exact absurd trivial hG
  | cons a as ih =>
    obtain ⟨r, hr, hrun⟩ := run_cons_eq_some.mp h
    by_cases ha : G s a
    · have hrest : ¬m.Along G r as := fun hrest =>
        hG ⟨ha, fun t ht => by rwa [Option.mem_unique ht hr]⟩
      obtain ⟨u, v, b, hu, hb, hv, ht⟩ := ih hrest hrun
      exact ⟨u, v, b, .head hr hu, hb, hv, ht⟩
    · exact ⟨s, r, a, .refl, ha, hr, .of_run hrun⟩

/-- A property that holds throughout holds at first. -/
theorem Throughout.head {P : σ → Prop} {as : List α} (h : m.Throughout P s as) : P s := by
  cases as with
  | nil => exact h
  | cons a as => exact h.1

/-- **Exact guards.** Suppose that guarded steps keep an invariant which entails the property, and
that any other step from it breaks the property. Then an executed schedule has the property
throughout exactly when it meets the guard throughout. -/
theorem throughout_iff_along {I P : σ → Prop} (hI : ∀ {s}, I s → P s)
    (hstep : ∀ {s t : σ} {a : α}, G s a → I s → m.step s a = some t → I t)
    (hbreak : ∀ {s t : σ} {a : α}, ¬G s a → I s → m.step s a = some t → ¬P t)
    {as : List α} (hs : I s) (h : m.run s as = some t) :
    m.Throughout P s as ↔ m.Along G s as := by
  induction as generalizing s with
  | nil => exact iff_of_true (hI hs) trivial
  | cons a as ih =>
    obtain ⟨r, hr, hrun⟩ := run_cons_eq_some.mp h
    rw [throughout_cons_of_step hr, along_cons_of_step hr]
    by_cases hG : G s a
    · rw [ih (hstep hG hs hr) hrun]
      exact and_congr_left' (iff_of_true (hI hs) hG)
    · exact iff_of_false (fun hP => hbreak hG hs hr hP.2.head) fun hA => hG hA.1

/-- A step of the restricted machine is a step that meets the guard. -/
theorem restrict_step_eq_some [∀ s a, Decidable (G s a)] {a : α} :
    (m.restrict G).step s a = some t ↔ G s a ∧ m.step s a = some t := by
  by_cases hG : G s a <;> simp [restrict, hG]

/-- A run of the restricted machine is a guarded run. -/
theorem Runs.of_restrict [∀ s a, Decidable (G s a)] (h : (m.restrict G).Reaches s t) :
    m.Runs G s t := by
  induction h with
  | refl => exact .refl
  | tail _ _ hs ih =>
    obtain ⟨hG, hst⟩ := restrict_step_eq_some.mp hs
    exact ih.tail hG hst

/-- An executed schedule of the restricted machine is a guarded run. -/
theorem Runs.of_restrict_run [∀ s a, Decidable (G s a)] (as : List α)
    (h : (m.restrict G).run s as = some t) : m.Runs G s t :=
  .of_restrict (.of_run h)

/-- An executed schedule that ends in a state with a decidable property exhibits a run to such
a state. -/
theorem Reaches.exists_of_run {P : σ → Prop} [DecidablePred P] (as : List α)
    (h : (m.run s as).any (P ·) = true) : ∃ t, m.Reaches s t ∧ P t := by
  obtain ⟨t, ht, hP⟩ := (Option.any_eq_true _ _).mp h
  exact ⟨t, .of_run ht, of_decide_eq_true hP⟩

/-- The same for a guarded run. -/
theorem Runs.exists_of_run [∀ s a, Decidable (G s a)] {P : σ → Prop} [DecidablePred P]
    (as : List α) (h : ((m.restrict G).run s as).any (P ·) = true) : ∃ t, m.Runs G s t ∧ P t := by
  obtain ⟨t, ht, hP⟩ := Reaches.exists_of_run as h
  exact ⟨t, .of_restrict ht, hP⟩

/-- **Termination rule.** If no infinite sequence of steps starts anywhere, every state
reaches one in which no action is enabled. -/
theorem exists_stuck (hwf : WellFounded fun t s => ∃ a, m.step s a = some t) (s : σ) :
    ∃ t, m.Reaches s t ∧ ∀ a, m.step t a = none := by
  induction s using hwf.induction with
  | _ s ih =>
    by_cases hs : ∃ a t, m.step s a = some t
    · obtain ⟨a, t, hst⟩ := hs
      obtain ⟨u, htu, hu⟩ := ih t ⟨a, hst⟩
      exact ⟨u, .head hst htu, hu⟩
    · push Not at hs
      exact ⟨s, .refl, fun a => Option.eq_none_iff_forall_ne_some.mpr (hs a)⟩

end Machine

/-! ### Processes in slots

A state with any number of processes keeps them in a list, and a step moves one of them: it
replaces the entry of one slot. -/

section Slots

variable {α : Type*} {l : List α} {i : ℕ} {p p' : α} {P : α → Prop}

/-- A process in another slot than `i` has the property. -/
def Others (l : List α) (i : ℕ) (P : α → Prop) : Prop :=
  ∃ j, j ≠ i ∧ ∃ q, l[j]? = some q ∧ P q

theorem exists_mem_iff_others (h : l[i]? = some p) : (∃ q ∈ l, P q) ↔ P p ∨ Others l i P := by
  constructor
  · rintro ⟨q, hq, hP⟩
    obtain ⟨j, hj⟩ := List.mem_iff_getElem?.mp hq
    by_cases hji : j = i
    · subst hji
      rw [h, Option.some.injEq] at hj
      exact .inl (hj ▸ hP)
    · exact .inr ⟨j, hji, q, hj, hP⟩
  · rintro (hP | ⟨j, -, q, hj, hP⟩)
    · exact ⟨p, List.mem_of_getElem? h, hP⟩
    · exact ⟨q, List.mem_of_getElem? hj, hP⟩

/-- Moving the process in one slot leaves the others alone. -/
theorem others_set : Others (l.set i p') i P ↔ Others l i P := by
  refine exists_congr fun j => and_congr_right fun hj => exists_congr fun q => ?_
  rw [List.getElem?_set_ne (Ne.symm hj)]

theorem exists_mem_set_iff_others (h : l[i]? = some p) :
    (∃ q ∈ l.set i p', P q) ↔ P p' ∨ Others l i P := by
  have hi : i < l.length := (List.getElem?_eq_some_iff.mp h).1
  rw [exists_mem_iff_others (List.getElem?_set_self hi), others_set]

/-- A sum over the processes, when one of them moves. -/
theorem sum_map_set {A : Type*} [AddCommMonoid A] (f : α → A) (h : l[i]? = some p) (q : α) :
    ((l.set i q).map f).sum + f p = (l.map f).sum + f q := by
  induction l generalizing i with
  | nil => cases h
  | cons r l ih =>
    cases i with
    | zero =>
      obtain rfl : r = p := Option.some.inj h
      rw [List.set_cons_zero, List.map_cons, List.map_cons, List.sum_cons, List.sum_cons,
        add_right_comm, add_comm (f q), add_right_comm]
    | succ i =>
      rw [List.set_cons_succ, List.map_cons, List.map_cons, List.sum_cons, List.sum_cons,
        add_assoc, ih (i := i) h, add_assoc]

end Slots

/-! ### Objects and data refinement -/

/-- A sequential object: a call in a state gives the next state and an answer. -/
structure Object (σ α ρ : Type*) where
  call : σ → α → σ × ρ

namespace Object

variable {σ τ α ρ : Type*}

/-- The state after a sequence of calls, with the answers in order. -/
def calls (o : Object σ α ρ) (s : σ) : List α → σ × List ρ
  | [] => (s, [])
  | a :: as =>
    let (t, r) := o.call s a
    let (u, rs) := o.calls t as
    (u, r :: rs)

/-- **Data refinement.** Related states that answer each call alike and stay related answer
every sequence of calls alike and end up related. -/
theorem calls_refines {o : Object σ α ρ} {o' : Object τ α ρ} {Rel : σ → τ → Prop}
    (hcall : ∀ {s t} (a : α), Rel s t →
      Rel (o.call s a).1 (o'.call t a).1 ∧ (o.call s a).2 = (o'.call t a).2)
    {s : σ} {t : τ} (h : Rel s t) (as : List α) :
    Rel (o.calls s as).1 (o'.calls t as).1 ∧ (o.calls s as).2 = (o'.calls t as).2 := by
  induction as generalizing s t with
  | nil => exact ⟨h, rfl⟩
  | cons a as ih =>
    obtain ⟨hrel, hans⟩ := hcall a h
    obtain ⟨hrel', hans'⟩ := ih hrel
    exact ⟨hrel', congrArg₂ List.cons hans hans'⟩

end Object

end Gwems
