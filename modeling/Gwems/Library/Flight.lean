import Mathlib

/-!
# Bags of messages

The messages in flight of a network are a list. Processing one takes it out and puts the messages
it gives rise to at the end (`replace`). Two measures of such a bag:

* the number of messages with a property, which changes by what comes and goes
  (`countP_replace`), so that a property that each message hands on to one other is conserved;
* a rank for each message: if what comes has a smaller rank than what goes, whatever its number,
  processing ends (`wellFounded_replace`).
-/

namespace Gwems

namespace Flight

variable {α : Type*} {l new : List α} {i : ℕ} {x : α}

/-- Take out the message at a position and add others. -/
def replace (l : List α) (i : ℕ) (new : List α) : List α := l.eraseIdx i ++ new

theorem perm_cons_eraseIdx (h : l[i]? = some x) : List.Perm (x :: l.eraseIdx i) l := by
  obtain ⟨hi, rfl⟩ := List.getElem?_eq_some_iff.mp h
  exact List.getElem_cons_eraseIdx_perm hi

theorem mem_of_mem_replace {y : α} (h : y ∈ replace l i new) : y ∈ l ∨ y ∈ new :=
  (List.mem_append.mp h).imp_left List.mem_of_mem_eraseIdx

/-- Taking a message out takes its share out. -/
theorem countP_eraseIdx (h : l[i]? = some x) (P : α → Bool) :
    (l.eraseIdx i).countP P + [x].countP P = l.countP P := by
  have hperm := (perm_cons_eraseIdx h).countP_eq P
  rwa [List.countP_cons, ← List.countP_singleton] at hperm

/-- The number of messages with a property changes by those that come and the one that goes. -/
theorem countP_replace (h : l[i]? = some x) (P : α → Bool) :
    (replace l i new).countP P + [x].countP P = l.countP P + new.countP P := by
  have hold := countP_eraseIdx h P
  rw [replace, List.countP_append]
  omega

/-- **Termination.** No sequence in which messages are replaced by any numbers of messages of
smaller ranks goes on for ever. -/
theorem wellFounded_replace (rank : α → ℕ) :
    WellFounded fun t s : List α => ∃ i x new, s[i]? = some x ∧ (∀ y ∈ new, rank y < rank x) ∧
      t = replace s i new := by
  have hwf : WellFounded (InvImage (Relation.CutExpand (· < ·))
      fun l : List α => (Multiset.ofList (l.map rank) : Multiset ℕ)) :=
    InvImage.wf _ wellFounded_lt.cutExpand
  refine hwf.mono ?_
  rintro t s ⟨i, x, new, hx, hrank, rfl⟩
  refine ⟨Multiset.ofList (new.map rank), rank x, ?_, ?_⟩
  · intro r hr
    obtain ⟨y, hy, rfl⟩ := List.mem_map.mp (Multiset.mem_coe.mp hr)
    exact hrank y hy
  · have hperm : List.Perm ((replace s i new).map rank ++ [rank x]) (s.map rank ++ new.map rank) := by
      have hold := (perm_cons_eraseIdx hx).map rank
      rw [replace, List.map_append]
      refine List.Perm.trans ?_ (hold.append_right _)
      rw [List.map_cons, List.cons_append]
      exact List.perm_append_singleton ..
    exact Multiset.coe_eq_coe.mpr hperm

end Flight

end Gwems
