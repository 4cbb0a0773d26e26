import Mathlib

/-!
# Search trees whose order can be lost

A binary search tree finds its way by comparisons, and what it finds depends on its order: if the
elements are objects that change while they are in the tree, a search can miss them. So the
operations here are those of any binary tree, and the order is a hypothesis of the lemmas.

A search for `x` compares `x` with one element after the other; all it needs is that these answers,
`cut = cmp x`, come in the right order: `Cuts`. Then a search is a search in the list of the
elements (`find?_eq`), and so are insertion and deletion (`toList_insert`, `toList_erase`), however
the tree is balanced: a `Rebalance` can be any change that keeps the list.
-/

namespace Gwems

namespace SearchTree

open BinaryTree (nil node)

variable {α : Type*}

/-! ### Operations -/

/-- The elements in order. -/
def toList : BinaryTree α → List α
  | nil => []
  | node a l r => toList l ++ a :: toList r

/-- Go down to an element that compares as equal. -/
def find? (cut : α → Ordering) : BinaryTree α → Option α
  | nil => none
  | node a l r =>
    match cut a with
    | .lt => find? cut l
    | .eq => some a
    | .gt => find? cut r

/-- Go down to an element that compares as equal, or put the new element where there is none. -/
def insert (cut : α → Ordering) (x : α) : BinaryTree α → BinaryTree α
  | nil => node x nil nil
  | node a l r =>
    match cut a with
    | .lt => node a (insert cut x l) r
    | .eq => node a l r
    | .gt => node a l (insert cut x r)

/-- Take the first element out. -/
def popFirst : BinaryTree α → Option (α × BinaryTree α)
  | nil => none
  | node a l r =>
    match popFirst l with
    | none => some (a, r)
    | some (b, l') => some (b, node a l' r)

/-- Take the root out: if it has two children, the next element takes its place. -/
def eraseRoot : BinaryTree α → BinaryTree α → BinaryTree α
  | nil, r => r
  | node a l l', r =>
    match popFirst r with
    | none => node a l l'
    | some (b, r') => node b (node a l l') r'

/-- Go down to an element that compares as equal, and take it out. -/
def erase (cut : α → Ordering) : BinaryTree α → BinaryTree α
  | nil => nil
  | node a l r =>
    match cut a with
    | .lt => node a (erase cut l) r
    | .eq => eraseRoot l r
    | .gt => node a l (erase cut r)

/-- What is done to balance a tree: rotations keep the elements in order. -/
structure Rebalance (α : Type*) where
  fix : BinaryTree α → BinaryTree α
  toList_fix : ∀ t, toList (fix t) = toList t

/-- Leave the tree as it is. -/
def Rebalance.none : Rebalance α := ⟨id, fun _ => rfl⟩

/-! ### The first element -/

variable {t l r : BinaryTree α} {a x : α}

theorem popFirst_eq_none_iff : popFirst t = none ↔ t = nil := by
  cases t with
  | nil => exact iff_of_true rfl rfl
  | node a l r =>
    rw [popFirst]
    split <;> simp

theorem toList_of_popFirst {t' : BinaryTree α} (h : popFirst t = some (a, t')) :
    toList t = a :: toList t' := by
  induction t generalizing t' with
  | nil => cases h
  | node b l r ihl _ =>
    rw [popFirst] at h
    split at h
    next hl =>
      cases h
      rw [popFirst_eq_none_iff.mp hl]
      rfl
    next hl =>
      cases h
      rw [toList, ihl hl]
      rfl

theorem toList_eraseRoot (l r : BinaryTree α) : toList (eraseRoot l r) = toList l ++ toList r := by
  cases l with
  | nil => rfl
  | node a l l' =>
    rw [eraseRoot]
    split
    next hr =>
      rw [popFirst_eq_none_iff.mp hr]
      exact (List.append_nil _).symm
    next b r' hr =>
      rw [toList_of_popFirst hr]
      rfl

/-! ### Searches -/

variable {cut cut' : α → Ordering}

/-- The answers of a search come in the right order: in front of an element that is not larger than
what is searched for all are smaller. -/
def Cuts (cut : α → Ordering) (l : List α) : Prop := l.Pairwise fun a b => cut b ≠ .lt → cut a = .gt

/-- In a list that is strictly sorted every element can be searched for. -/
theorem Cuts.of_pairwise {cmp : α → α → Ordering} [Std.TransCmp cmp] {l : List α}
    (h : l.Pairwise fun a b => cmp a b = .lt) (x : α) : Cuts (cmp x) l := by
  refine h.imp fun {a b} hab hxb => ?_
  have hbx : cmp b x ≠ .gt := fun hgt => hxb (Std.OrientedCmp.gt_iff_lt.mp hgt)
  exact Std.OrientedCmp.gt_iff_lt.mpr
    (Std.TransCmp.lt_of_lt_of_isLE hab (Ordering.isLE_iff_ne_gt.mpr hbx))

/-- The answers at a node and below. -/
structure CutsNode (cut : α → Ordering) (a : α) (l r : List α) : Prop where
  left : Cuts cut l
  right : Cuts cut r
  gt_left : cut a ≠ .lt → ∀ b ∈ l, cut b = .gt
  lt_right : cut a ≠ .gt → ∀ b ∈ r, cut b = .lt

theorem Cuts.node {l r : List α} (h : Cuts cut (l ++ a :: r)) : CutsNode cut a l r := by
  obtain ⟨hl, har, hcross⟩ := List.pairwise_append.mp h
  obtain ⟨ha, hr⟩ := List.pairwise_cons.mp har
  refine ⟨hl, hr, fun hne b hb => hcross b hb a List.mem_cons_self hne, fun hne b hb => ?_⟩
  by_contra hlt
  exact hne (ha b hb hlt)

theorem not_isEq_of_forall {l : List α} {o : Ordering} (ho : o ≠ .eq) (h : ∀ b ∈ l, cut b = o) :
    ∀ b ∈ l, (cut b).isEq = false := by
  intro b hb
  rw [h b hb]
  cases o <;> simp_all

/-- **A search finds what is there.** -/
theorem find?_eq (h : Cuts cut (toList t)) :
    find? cut t = (toList t).find? fun b => (cut b).isEq := by
  induction t with
  | nil => rfl
  | node a l r ihl ihr =>
    have hnode := h.node
    rw [find?, toList, List.find?_append]
    cases ha : cut a with
    | lt =>
      have hright := not_isEq_of_forall (by decide) (hnode.lt_right (by rw [ha]; decide))
      have hnone : (a :: toList r).find? (fun b => (cut b).isEq) = none := by
        rw [List.find?_eq_none]
        simpa [ha] using hright
      rw [hnone, Option.or_none]
      exact ihl hnode.left
    | eq =>
      have hleft := not_isEq_of_forall (by decide) (hnode.gt_left (by rw [ha]; decide))
      have hnone : (toList l).find? (fun b => (cut b).isEq) = none := by
        rw [List.find?_eq_none]
        simpa using hleft
      rw [hnone, Option.none_or, List.find?_cons_of_pos (by rw [ha]; rfl)]
    | gt =>
      have hleft := not_isEq_of_forall (by decide) (hnode.gt_left (by rw [ha]; decide))
      have hnone : (toList l).find? (fun b => (cut b).isEq) = none := by
        rw [List.find?_eq_none]
        simpa using hleft
      rw [hnone, Option.none_or, List.find?_cons_of_neg (by rw [ha]; decide)]
      exact ihr hnode.right

/-- **A deletion takes out what is there.** -/
theorem toList_erase (h : Cuts cut (toList t)) :
    toList (erase cut t) = (toList t).filter fun b => !(cut b).isEq := by
  have hall : ∀ {l : List α}, (∀ b ∈ l, (cut b).isEq = false) →
      l.filter (fun b => !(cut b).isEq) = l := fun hl =>
    List.filter_eq_self.mpr fun b hb => by rw [hl b hb]; rfl
  induction t with
  | nil => rfl
  | node a l r ihl ihr =>
    have hnode := h.node
    rw [erase, toList, List.filter_append]
    cases ha : cut a with
    | lt =>
      have hright := not_isEq_of_forall (by decide) (hnode.lt_right (by rw [ha]; decide))
      rw [List.filter_cons_of_pos (by rw [ha]; rfl), hall hright, ← ihl hnode.left]
      rfl
    | eq =>
      have hleft := not_isEq_of_forall (by decide) (hnode.gt_left (by rw [ha]; decide))
      have hright := not_isEq_of_forall (by decide) (hnode.lt_right (by rw [ha]; decide))
      rw [List.filter_cons_of_neg (by rw [ha]; decide), hall hleft, hall hright]
      exact toList_eraseRoot l r
    | gt =>
      have hleft := not_isEq_of_forall (by decide) (hnode.gt_left (by rw [ha]; decide))
      rw [List.filter_cons_of_pos (by rw [ha]; rfl), hall hleft, ← ihr hnode.right]
      rfl

section Insert

variable (le : α → α → Prop) [DecidableRel le]

theorem orderedInsert_append_cons_of_le (l r : List α) (h : le x a) :
    (l ++ a :: r).orderedInsert le x = l.orderedInsert le x ++ a :: r := by
  induction l with
  | nil => simp [h]
  | cons b l ih =>
    rw [List.cons_append, List.orderedInsert_cons, List.orderedInsert_cons, ih]
    split <;> rfl

theorem orderedInsert_append_of_not_le (l r : List α) (h : ∀ b ∈ l, ¬le x b) :
    (l ++ r).orderedInsert le x = l ++ r.orderedInsert le x := by
  induction l with
  | nil => rfl
  | cons b l ih =>
    obtain ⟨hb, hl⟩ := List.forall_mem_cons.mp h
    rw [List.cons_append, List.orderedInsert_of_not_le le _ hb, ih hl]
    rfl

/-- What is put into its place leaves a list strictly sorted. -/
theorem pairwise_orderedInsert {cmp : α → α → Ordering} [Std.TransCmp cmp] {l : List α}
    (h : l.Pairwise fun a b => cmp a b = .lt) (hx : ∀ b ∈ l, cmp x b ≠ .eq) :
    (l.orderedInsert (fun b c => (cmp b c).isLE) x).Pairwise fun a b => cmp a b = .lt := by
  induction l with
  | nil => exact List.pairwise_singleton _ x
  | cons b l ih =>
    obtain ⟨hb, hl⟩ := List.pairwise_cons.mp h
    obtain ⟨hxb, hxl⟩ := List.forall_mem_cons.mp hx
    rw [List.orderedInsert_cons]
    split
    next hle =>
      have hlt : cmp x b = .lt := (Ordering.isLE_iff_eq_lt_or_eq_eq.mp hle).resolve_right hxb
      refine List.pairwise_cons.mpr ⟨List.forall_mem_cons.mpr ⟨hlt, fun c hc => ?_⟩, h⟩
      exact Std.TransCmp.lt_trans hlt (hb c hc)
    next hle =>
      refine List.pairwise_cons.mpr ⟨fun c hc => ?_, ih hl hxl⟩
      rcases (List.mem_orderedInsert _).mp hc with rfl | hc
      · exact Std.OrientedCmp.gt_iff_lt.mp (Ordering.isLE_eq_false.mp (Bool.eq_false_iff.mpr hle))
      · exact hb c hc

end Insert

/-- **An insertion puts an element into its place**, unless one is there that compares as equal. -/
theorem toList_insert {cmp : α → α → Ordering} (h : Cuts (cmp x) (toList t)) :
    toList (insert (cmp x) x t) =
      if (toList t).any fun b => (cmp x b).isEq then toList t
      else (toList t).orderedInsert (fun b c => (cmp b c).isLE) x := by
  induction t with
  | nil => rfl
  | node a l r ihl ihr =>
    have hnode := h.node
    rw [insert, toList, List.any_append, List.any_cons]
    cases ha : cmp x a with
    | lt =>
      have hright := not_isEq_of_forall (by decide) (hnode.lt_right (by rw [ha]; decide))
      have hany : ((toList r).any fun b => (cmp x b).isEq) = false := by
        rw [List.any_eq_false]
        simpa using hright
      rw [orderedInsert_append_cons_of_le _ _ _ (by rw [ha]; rfl), hany]
      simp only [toList, ihl hnode.left]
      by_cases hl : ((toList l).any fun b => (cmp x b).isEq) = true <;> simp [hl]
    | eq => simp [toList]
    | gt =>
      have hleft := hnode.gt_left (by rw [ha]; decide)
      have hany : ((toList l).any fun b => (cmp x b).isEq) = false := by
        rw [List.any_eq_false]
        simpa using not_isEq_of_forall (by decide) hleft
      rw [orderedInsert_append_of_not_le _ _ _ fun b hb => by rw [hleft b hb]; decide,
        List.orderedInsert_of_not_le _ _ (by rw [ha]; decide), hany]
      simp only [toList, ihr hnode.right]
      by_cases hr : ((toList r).any fun b => (cmp x b).isEq) = true <;> simp [hr]

/-! ### Other comparisons with the same answers -/

theorem find?_congr (h : ∀ b ∈ toList t, cut b = cut' b) : find? cut t = find? cut' t := by
  induction t with
  | nil => rfl
  | node a l r ihl ihr =>
    rw [toList, List.forall_mem_append, List.forall_mem_cons] at h
    obtain ⟨hl, ha, hr⟩ := h
    rw [find?, find?, ha, ihl hl, ihr hr]

theorem erase_congr (h : ∀ b ∈ toList t, cut b = cut' b) : erase cut t = erase cut' t := by
  induction t with
  | nil => rfl
  | node a l r ihl ihr =>
    rw [toList, List.forall_mem_append, List.forall_mem_cons] at h
    obtain ⟨hl, ha, hr⟩ := h
    rw [erase, erase, ha, ihl hl, ihr hr]

theorem insert_congr (h : ∀ b ∈ toList t, cut b = cut' b) : insert cut x t = insert cut' x t := by
  induction t with
  | nil => rfl
  | node a l r ihl ihr =>
    rw [toList, List.forall_mem_append, List.forall_mem_cons] at h
    obtain ⟨hl, ha, hr⟩ := h
    rw [insert, insert, ha, ihl hl, ihr hr]

end SearchTree

end Gwems
