import Mathlib

/-!
# Conveyors

Stations with queues, each with at most one station after it. What leaves the head of a queue joins
the tail of the queue of the next station, so that nothing is overtaken on the line from an entrance
to an exit: the queues of the line, read from the exit back to the entrance, hold what has entered,
in this order (`InOrder`). The queue of the exit is a prefix of it (`InOrder.isPrefix`).

The queues of a system hold items of several kinds. `carried` is the list of what is conveyed in a
queue, and how it changes when an item of the queue changes or is taken out.
-/

namespace Gwems

/-- Stations with the station that comes after each. The rank excludes cycles. -/
structure Conveyor (P : Type*) where
  next : P → Option P
  rank : P → ℕ
  rank_next : ∀ p q, next p = some q → rank q < rank p

namespace Conveyor

variable {P α : Type*} (C : Conveyor P)

/-- The stations on the line from a station on. -/
def OnLine (p q : P) : Prop := Relation.ReflTransGen (fun a b => C.next a = some b) p q

/-- The queues on the line from a station on, the last one first. -/
def content (Q : P → List α) (p : P) : List α :=
  match _h : C.next p with
  | some q => content Q q ++ Q p
  | none => Q p
termination_by C.rank p
decreasing_by exact C.rank_next p q _h

/-- The list moves from the head of one queue to the tail of the next one. -/
structure Moves (Q Q' : P → List α) (p q : P) (l : List α) : Prop where
  next : C.next p = some q
  leaves : Q p = l ++ Q' p
  joins : Q' q = Q q ++ l
  others : ∀ r, r ≠ p → r ≠ q → Q' r = Q r

/-- What is on the conveyor is on the line from the entrance, in the order in which it entered. -/
structure InOrder (e : P) (Q : P → List α) (entered : List α) : Prop where
  content_eq : C.content Q e = entered
  onLine : ∀ p, Q p ≠ [] → C.OnLine e p

variable {C} {Q Q' : P → List α} {e p q r : P} {l entered : List α}

theorem content_of_next (h : C.next p = some q) : C.content Q p = C.content Q q ++ Q p := by
  rw [content.eq_def C Q p]
  split
  next q' hq' => rw [Option.some.inj (h.symm.trans hq')]
  next hnone => rw [hnone] at h; cases h

theorem content_of_exit (h : C.next p = none) : C.content Q p = Q p := by
  rw [content.eq_def C Q p]
  split
  next q' hq' => rw [hq'] at h; cases h
  next => rfl

theorem OnLine.rank_le (h : C.OnLine p q) : C.rank q ≤ C.rank p := by
  induction h with
  | refl => exact le_refl _
  | tail _ hnext ih => exact (C.rank_next _ _ hnext).le.trans ih

/-- The content depends on the queues of the line only. -/
theorem content_congr (h : ∀ q, C.rank q ≤ C.rank p → Q q = Q' q) :
    C.content Q p = C.content Q' p := by
  induction hn : C.rank p using Nat.strong_induction_on generalizing p with
  | h n ih =>
    subst hn
    cases hnext : C.next p with
    | none => rw [content_of_exit hnext, content_of_exit hnext, h p le_rfl]
    | some q =>
      have hlt := C.rank_next p q hnext
      have hq : C.content Q q = C.content Q' q :=
        ih _ hlt (fun r hr => h r (hr.trans hlt.le)) rfl
      rw [content_of_next hnext, content_of_next hnext, hq, h p le_rfl]

/-- What moves along a line stays on it, at the same place of the order. -/
theorem Moves.content (h : C.Moves Q Q' p q l) (hline : C.OnLine e p) :
    C.content Q' e = C.content Q e := by
  have hpq := C.rank_next p q h.next
  induction hline using Relation.ReflTransGen.head_induction_on with
  | refl =>
    -- the queues behind the next station are as before
    have hq : C.content Q' q = C.content Q q ++ l := by
      cases hnext : C.next q with
      | none => rw [content_of_exit hnext, content_of_exit hnext, h.joins]
      | some r =>
        have hlt := C.rank_next q r hnext
        have hrest : C.content Q' r = C.content Q r := by
          refine content_congr fun s hs => h.others s ?_ ?_
          · rintro rfl
            omega
          · rintro rfl
            omega
        rw [content_of_next hnext, content_of_next hnext, hrest, h.joins, List.append_assoc]
    rw [content_of_next h.next, content_of_next h.next, hq, h.leaves, List.append_assoc]
  | @head e r hnext hline ih =>
    have hle := OnLine.rank_le hline
    have hlt := C.rank_next e r hnext
    have he : Q' e = Q e := by
      refine h.others e ?_ ?_
      · rintro rfl
        omega
      · rintro rfl
        omega
    rw [content_of_next hnext, content_of_next hnext, ih, he]

theorem Moves.eq_of_nil (h : C.Moves Q Q' p q []) : Q' = Q := by
  funext r
  by_cases hp : r = p
  · rw [hp, h.leaves, List.nil_append]
  · by_cases hq : r = q
    · rw [hq, h.joins, List.append_nil]
    · exact h.others r hp hq

/-- An empty conveyor. -/
theorem inOrder_nil (h : ∀ p, Q p = []) : C.InOrder e Q [] where
  content_eq := by
    have hcontent : C.content Q e = C.content (fun _ => []) e := content_congr fun q _ => h q
    rw [hcontent]
    induction hn : C.rank e using Nat.strong_induction_on generalizing e with
    | h n ih =>
      subst hn
      cases hnext : C.next e with
      | none => rw [content_of_exit hnext]
      | some q =>
        have hq := ih _ (C.rank_next e q hnext) (content_congr fun r _ => h r) rfl
        rw [content_of_next hnext, hq, List.append_nil]
  onLine p hp := absurd (h p) hp

/-- A step of the conveyor keeps the order. -/
theorem InOrder.moves (h : C.InOrder e Q entered) (hmoves : C.Moves Q Q' p q l) :
    C.InOrder e Q' entered := by
  by_cases hl : l = []
  · subst hl
    rwa [hmoves.eq_of_nil]
  · have hp : C.OnLine e p := by
      refine h.onLine p fun hnil => ?_
      rw [hmoves.leaves, List.append_eq_nil_iff] at hnil
      exact hl hnil.1
    refine ⟨(hmoves.content hp).trans h.content_eq, fun r hr => ?_⟩
    by_cases hrp : r = p
    · exact hrp ▸ hp
    · by_cases hrq : r = q
      · exact hrq ▸ hp.tail hmoves.next
      · exact h.onLine r (hmoves.others r hrp hrq ▸ hr)

/-- So does what enters. -/
theorem InOrder.enter (h : C.InOrder e Q entered) (hjoins : Q' e = Q e ++ l)
    (hothers : ∀ r, r ≠ e → Q' r = Q r) : C.InOrder e Q' (entered ++ l) where
  content_eq := by
    cases hnext : C.next e with
    | none => rw [content_of_exit hnext, hjoins, ← h.content_eq, content_of_exit hnext]
    | some q =>
      have hlt := C.rank_next e q hnext
      have hrest : C.content Q' q = C.content Q q := by
        refine content_congr fun r hr => hothers r ?_
        rintro rfl
        omega
      rw [content_of_next hnext, hrest, hjoins, ← h.content_eq, content_of_next hnext,
        List.append_assoc]
  onLine r hr := by
    by_cases hre : r = e
    · exact hre ▸ .refl
    · exact h.onLine r (hothers r hre ▸ hr)

/-- **Order.** What is at a station without a next one has arrived in the order in which it
entered. -/
theorem InOrder.isPrefix (h : C.InOrder e Q entered) (hexit : C.next p = none) :
    Q p <+: entered := by
  have hline : ∀ {e}, C.OnLine e p → Q p <+: C.content Q e := by
    intro e hline
    induction hline using Relation.ReflTransGen.head_induction_on with
    | refl => rw [content_of_exit hexit]
    | head hnext _ ih =>
      rw [content_of_next hnext]
      exact ih.trans (List.prefix_append _ _)
  by_cases hp : Q p = []
  · rw [hp]
    exact List.nil_prefix
  · rw [← h.content_eq]
    exact hline (h.onLine p hp)

/-- Nothing is at a station before something has entered. -/
theorem InOrder.queue_eq_nil (h : C.InOrder e Q []) (p : P) : Q p = [] := by
  by_contra hp
  have hline := h.onLine p hp
  have hcontent := h.content_eq
  clear h
  induction hline using Relation.ReflTransGen.head_induction_on with
  | refl =>
    cases hnext : C.next p with
    | none => exact hp (by rwa [content_of_exit hnext] at hcontent)
    | some q =>
      rw [content_of_next hnext, List.append_eq_nil_iff] at hcontent
      exact hp hcontent.2
  | head hnext _ ih =>
    rw [content_of_next hnext, List.append_eq_nil_iff] at hcontent
    exact ih hcontent.1

/-- When all other queues are empty, everything has arrived. -/
theorem InOrder.queue_eq (h : C.InOrder e Q entered) (hline : C.OnLine e p)
    (hexit : C.next p = none) (hempty : ∀ r, r ≠ p → Q r = []) : Q p = entered := by
  have hne : ∀ {r}, C.next r ≠ none → Q r = [] := by
    intro r hr
    refine hempty r ?_
    rintro rfl
    exact hr hexit
  rw [← h.content_eq]
  clear h
  induction hline using Relation.ReflTransGen.head_induction_on with
  | refl => rw [content_of_exit hexit]
  | @head e r hnext _ ih =>
    have he : Q e = [] := hne (by rw [hnext]; exact Option.some_ne_none r)
    rw [content_of_next hnext, he, List.append_nil, ← ih]

end Conveyor

/-! ### What the items of a queue carry -/

/-- The elements of a family that the items of a list carry. -/
def carried {ι α : Type*} (F : α → Bool) (f : ι → Option α) (l : List ι) : List α :=
  (l.filterMap f).filter F

section Carried

variable {ι α : Type*} {F : α → Bool} {f : ι → Option α} {l l' : List ι} {x : ι}

@[simp] theorem carried_nil : carried F f [] = [] := rfl

theorem carried_append : carried F f (l ++ l') = carried F f l ++ carried F f l' := by
  rw [carried, List.filterMap_append, List.filter_append, carried, carried]

theorem carried_cons : carried F f (x :: l) = carried F f [x] ++ carried F f l :=
  carried_append (l := [x])

theorem carried_singleton : carried F f [x] = ((f x).filter F).toList := by
  cases h : f x with
  | none => simp [carried, h]
  | some e => cases hF : F e <;> simp [carried, h, hF, Option.filter]

theorem carried_singleton_eq_nil : carried F f [x] = [] ↔ ¬(f x).any F = true := by
  rw [carried_singleton]
  cases f x with
  | none => simp
  | some e => simp [Option.filter]

/-- Items none of which carries an element of the family. -/
theorem carried_eq_nil (h : ∀ y ∈ l, ¬(f y).any F = true) : carried F f l = [] := by
  induction l with
  | nil => rfl
  | cons y l ih =>
    rw [carried_cons, carried_singleton_eq_nil.mpr (h y List.mem_cons_self),
      ih fun z hz => h z (List.mem_cons_of_mem y hz), List.append_nil]

/-- An item in the list has its share in the middle. -/
theorem carried_eq_of_getElem? {i : ℕ} (hx : l[i]? = some x) :
    carried F f l =
      carried F f (l.take i) ++ (carried F f [x] ++ carried F f (l.drop (i + 1))) := by
  obtain ⟨hi, rfl⟩ := List.getElem?_eq_some_iff.mp hx
  rw [← carried_cons, ← carried_append, ← List.drop_eq_getElem_cons hi, List.take_append_drop]

theorem carried_ne_nil {i : ℕ} (hx : l[i]? = some x) (h : carried F f [x] ≠ []) :
    carried F f l ≠ [] := by
  rw [carried_eq_of_getElem? hx]
  intro hnil
  exact h (List.append_eq_nil_iff.mp (List.append_eq_nil_iff.mp hnil).2).1

/-- An item that carries nothing before it is the head of what is carried. -/
theorem carried_eq_append_eraseIdx {i : ℕ} (hx : l[i]? = some x)
    (hturn : (f x).any F = true → ∀ y ∈ l.take i, ¬(f y).any F = true) :
    carried F f l = carried F f [x] ++ carried F f (l.eraseIdx i) := by
  rw [List.eraseIdx_eq_take_drop_succ, carried_append, carried_eq_of_getElem? hx]
  by_cases hany : (f x).any F = true
  · rw [carried_eq_nil (hturn hany), List.nil_append, List.nil_append]
  · rw [carried_singleton_eq_nil.mpr hany, List.nil_append, List.nil_append]

theorem carried_set {i : ℕ} (hx : l[i]? = some x) (x' : ι) :
    carried F f (l.set i x') =
      carried F f (l.take i) ++ (carried F f [x'] ++ carried F f (l.drop (i + 1))) := by
  obtain ⟨hi, -⟩ := List.getElem?_eq_some_iff.mp hx
  rw [List.set_eq_take_append_cons_drop, if_pos hi, carried_append, carried_cons]

/-- An item that gives away what it carries is like one that is taken out. -/
theorem carried_set_of_nil {i : ℕ} (hx : l[i]? = some x) {x' : ι} (hx' : carried F f [x'] = []) :
    carried F f (l.set i x') = carried F f (l.eraseIdx i) := by
  rw [carried_set hx, hx', List.nil_append, ← carried_append, ← List.eraseIdx_eq_take_drop_succ]

/-- An item that carries the same as before. -/
theorem carried_set_of_eq {i : ℕ} (hx : l[i]? = some x) {x' : ι}
    (hx' : carried F f [x'] = carried F f [x]) : carried F f (l.set i x') = carried F f l := by
  rw [carried_set hx, hx', ← carried_eq_of_getElem? hx]

end Carried

end Gwems
