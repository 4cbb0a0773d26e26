import Mathlib

/-!
# Odometers

A row of wheels with `b` digits each, the fastest wheel first. `next` turns the first wheel by one
digit, and a wheel that comes back to zero turns the one behind it. The number that the wheels show
(`Nat.ofDigits`) counts the turns, until all of them come back to zero at once.
-/

namespace Gwems

namespace Odometer

variable {b : ℕ} {l : List ℕ}

/-- One turn of the first wheel. -/
def next (b : ℕ) : List ℕ → List ℕ
  | [] => []
  | d :: l => if d + 1 < b then (d + 1) :: l else 0 :: next b l

/-- Every wheel shows its last digit. -/
def Full (b : ℕ) (l : List ℕ) : Prop := ∀ d ∈ l, d + 1 = b

instance : Decidable (Full b l) := inferInstanceAs (Decidable (∀ d ∈ l, d + 1 = b))

@[simp]
theorem length_next (b : ℕ) (l : List ℕ) : (next b l).length = l.length := by
  induction l with
  | nil => rfl
  | cons d l ih =>
    rw [next]
    split
    next => rfl
    next => rw [List.length_cons, ih, List.length_cons]

theorem next_lt (hl : ∀ d ∈ l, d < b) : ∀ d ∈ next b l, d < b := by
  induction l with
  | nil => exact hl
  | cons d l ih =>
    obtain ⟨hd, hl⟩ := List.forall_mem_cons.mp hl
    rw [next]
    split
    next h => exact List.forall_mem_cons.mpr ⟨h, hl⟩
    next => exact List.forall_mem_cons.mpr ⟨by omega, ih hl⟩

theorem ofDigits_of_full (h : Full b l) : Nat.ofDigits b l + 1 = b ^ l.length := by
  induction l with
  | nil => rfl
  | cons d l ih =>
    obtain ⟨hd, hl⟩ := List.forall_mem_cons.mp h
    calc Nat.ofDigits b (d :: l) + 1 = (d + 1) + b * Nat.ofDigits b l := by
          rw [Nat.ofDigits_cons]; ring
      _ = b * (Nat.ofDigits b l + 1) := by rw [hd]; ring
      _ = b ^ (d :: l).length := by rw [ih hl, List.length_cons, pow_succ']

/-- **A turn adds one.** -/
theorem ofDigits_next (hl : ∀ d ∈ l, d < b) (h : ¬ Full b l) :
    Nat.ofDigits b (next b l) = Nat.ofDigits b l + 1 := by
  induction l with
  | nil => exact absurd (fun d hd => by cases hd) h
  | cons d l ih =>
    obtain ⟨hd, hl⟩ := List.forall_mem_cons.mp hl
    rw [next]
    split
    next =>
      rw [Nat.ofDigits_cons, Nat.ofDigits_cons]
      ring
    next hlast =>
      have hdigit : d + 1 = b := by omega
      have hfull : ¬ Full b l := fun hl => h (List.forall_mem_cons.mpr ⟨hdigit, hl⟩)
      calc Nat.ofDigits b (0 :: next b l) = b * (Nat.ofDigits b l + 1) := by
            rw [Nat.ofDigits_cons, ih hl hfull, zero_add]
        _ = (d + 1) + b * Nat.ofDigits b l := by rw [hdigit]; ring
        _ = Nat.ofDigits b (d :: l) + 1 := by rw [Nat.ofDigits_cons]; ring

/-- The wheels after `k` turns from zero. -/
theorem iterate_next_replicate (hb : 0 < b) {n k : ℕ} (hk : k < b ^ n) :
    ((next b)^[k] (List.replicate n 0)).length = n ∧
      (∀ d ∈ (next b)^[k] (List.replicate n 0), d < b) ∧
      Nat.ofDigits b ((next b)^[k] (List.replicate n 0)) = k := by
  induction k with
  | zero =>
    refine ⟨List.length_replicate, fun d hd => ?_, Nat.ofDigits_replicate_zero⟩
    rw [(List.mem_replicate.mp hd).2]
    exact hb
  | succ k ih =>
    obtain ⟨hlength, hlt, hvalue⟩ := ih (by omega)
    have hfull : ¬ Full b ((next b)^[k] (List.replicate n 0)) := by
      intro hfull
      have := ofDigits_of_full hfull
      rw [hvalue, hlength] at this
      omega
    rw [Function.iterate_succ_apply', length_next, ofDigits_next hlt hfull, hvalue]
    exact ⟨hlength, next_lt hlt, rfl⟩

/-- **Every position is reached**, after as many turns as it says. -/
theorem iterate_next_ofDigits (hb : 1 < b) (hl : ∀ d ∈ l, d < b) :
    (next b)^[Nat.ofDigits b l] (List.replicate l.length 0) = l := by
  obtain ⟨hlength, hlt, hvalue⟩ := iterate_next_replicate (by omega)
    (Nat.ofDigits_lt_base_pow_length hb hl)
  exact Nat.ofDigits_inj_of_len_eq hb hlength hlt hl hvalue

end Odometer

end Gwems
