import Mathlib

/-!
# Sending at a pace

A sender is asked from time to time whether something is due. It sends if the time it is due at has
passed, and is due again one interval after that time, not after the present one (`beats`). So it
makes up for a pause by sending whenever it is asked.

Its rate in any window of time is what the interval allows if and only if the sender does not catch
up by as much as an interval (`isLimited_iff`), and so in particular if it is never more than an
interval late (`keepsLag_of_lag_le`).
-/

namespace Gwems

namespace Pace

/-- Something that was sent, and when it was due. -/
structure Beat where
  time : ℤ
  due : ℤ
deriving DecidableEq

/-- By how much it was late. -/
def Beat.lag (b : Beat) : ℤ := b.time - b.due

/-- What is sent when asked at the given times. -/
def beats (interval : ℤ) : ℤ → List ℤ → List Beat
  | _, [] => []
  | due, time :: times =>
    if due < time then ⟨time, due⟩ :: beats interval (due + interval) times
    else beats interval due times

/-- At most `n + 1` of the times are in any window of `n` intervals. -/
def IsLimited (interval : ℤ) (times : List ℤ) : Prop :=
  ∀ n : ℕ, 1 ≤ n → ∀ w : ℤ,
    (times.filter fun s => w ≤ s ∧ s ≤ w + n * interval).length ≤ n + 1

/-- No later beat but the next is an interval less late. -/
def KeepsLag (interval : ℤ) (beats : List Beat) : Prop :=
  ∀ (j k : ℕ) (a b : Beat), j + 2 ≤ k → beats[j]? = some a → beats[k]? = some b →
    a.lag - b.lag < interval

variable {interval due : ℤ} {times : List ℤ}

/-! ### Beats -/

/-- Nothing is sent before it is due. -/
theorem due_lt_time : ∀ b ∈ beats interval due times, b.due < b.time := by
  induction times generalizing due with
  | nil => simp [beats]
  | cons time times ih =>
    rw [beats]
    split
    next h => exact List.forall_mem_cons.mpr ⟨h, ih⟩
    next => exact ih

/-- Everything is sent when asked for. -/
theorem map_time_beats_sublist :
    List.Sublist ((beats interval due times).map Beat.time) times := by
  induction times generalizing due with
  | nil => exact List.Sublist.refl _
  | cons time times ih =>
    rw [beats]
    split
    next => exact ih.cons_cons time
    next => exact ih.cons time

/-- Beats are due one interval after the other. -/
theorem due_of_getElem? {j : ℕ} {b : Beat} (h : (beats interval due times)[j]? = some b) :
    b.due = due + j * interval := by
  induction times generalizing due j with
  | nil => simp [beats] at h
  | cons time times ih =>
    rw [beats] at h
    split at h
    next =>
      cases j with
      | zero =>
        obtain rfl : (⟨time, due⟩ : Beat) = b := by simpa using h
        simp
      | succ j =>
        rw [ih (by simpa using h)]
        push_cast
        ring
    next => exact ih h

theorem time_le_of_getElem? (hsorted : times.Pairwise (· ≤ ·)) {j k : ℕ} {a b : Beat}
    (ha : (beats interval due times)[j]? = some a) (hb : (beats interval due times)[k]? = some b)
    (hjk : j ≤ k) : a.time ≤ b.time := by
  have hbeats : ((beats interval due times).map Beat.time).Pairwise (· ≤ ·) :=
    hsorted.sublist map_time_beats_sublist
  obtain ⟨hj, rfl⟩ := List.getElem?_eq_some_iff.mp ha
  obtain ⟨hk, rfl⟩ := List.getElem?_eq_some_iff.mp hb
  rcases hjk.eq_or_lt with rfl | hlt
  · exact le_rfl
  · rw [List.pairwise_map, List.pairwise_iff_getElem] at hbeats
    exact hbeats j k hj hk hlt

/-! ### Windows -/

/-- Many elements of a list that satisfy a test include two that are far apart. -/
theorem exists_getElem?_of_lt_length_filter {α : Type*} {p : α → Bool} {l : List α} {n : ℕ}
    (h : n < (l.filter p).length) :
    ∃ j k a b, j + n ≤ k ∧ l[j]? = some a ∧ l[k]? = some b ∧ p a = true ∧ p b = true := by
  obtain ⟨f, hf⟩ := List.sublist_iff_exists_orderEmbedding_getElem?_eq.mp
    (List.filter_sublist (l := l) (p := p))
  have hget : ∀ i (hi : i < (l.filter p).length),
      l[f i]? = some (l.filter p)[i] ∧ p (l.filter p)[i] = true := by
    intro i hi
    refine ⟨by rw [← hf, List.getElem?_eq_getElem hi], ?_⟩
    exact (List.mem_filter.mp (List.getElem_mem hi)).2
  have hfar : ∀ m, f 0 + m ≤ f m := by
    intro m
    induction m with
    | zero => exact le_rfl
    | succ m ih =>
      have hlt : f m < f (m + 1) := f.lt_iff_lt.mpr (Nat.lt_succ_self m)
      omega
  obtain ⟨hfirst, hpfirst⟩ := hget 0 (by omega)
  obtain ⟨hlast, hplast⟩ := hget n h
  exact ⟨f 0, f n, _, _, hfar n, hfirst, hlast, hpfirst, hplast⟩

/-- The elements between two places that all satisfy a test are among those that do. -/
theorem lt_length_filter_of_forall {α : Type*} {p : α → Bool} {l : List α} {j n : ℕ}
    (hlength : j + n < l.length) (h : ∀ i a, j ≤ i → i ≤ j + n → l[i]? = some a → p a = true) :
    n < (l.filter p).length := by
  have hall : ∀ a ∈ (l.drop j).take (n + 1), p a = true := by
    intro a ha
    obtain ⟨i, hi⟩ := List.mem_iff_getElem?.mp ha
    rw [List.getElem?_take, List.getElem?_drop] at hi
    split at hi
    next hlt => exact h (j + i) a (by omega) (by omega) hi
    next => cases hi
  have hsub : List.Sublist ((l.drop j).take (n + 1)) (l.filter p) := by
    rw [← List.filter_eq_self.mpr hall]
    exact ((List.take_sublist _ _).trans (List.drop_sublist _ _)).filter p
  have hle := hsub.length_le
  rw [List.length_take, List.length_drop] at hle
  omega

/-- **When the rate is kept**: exactly if no beat but the next is less late by an interval. -/
theorem isLimited_iff (hsorted : times.Pairwise (· ≤ ·)) (hinterval : 0 ≤ interval) :
    IsLimited interval ((beats interval due times).map Beat.time) ↔
      KeepsLag interval (beats interval due times) := by
  constructor
  · intro hlimited j k a b hjk ha hb
    by_contra hcatch
    obtain ⟨n, rfl⟩ : ∃ n, k = j + (n + 1) := ⟨k - j - 1, by omega⟩
    have hdue := due_of_getElem? ha
    have hdue' := due_of_getElem? hb
    have hwindow : b.time ≤ a.time + n * interval := by
      unfold Beat.lag at hcatch
      push_cast at hdue'
      linarith
    -- all beats from the first to the last are in the window
    have hcount := lt_length_filter_of_forall (j := j) (n := n + 1)
      (l := (beats interval due times).map Beat.time)
      (p := fun s => a.time ≤ s ∧ s ≤ a.time + n * interval)
      (by
        rw [List.length_map]
        exact (List.getElem?_eq_some_iff.mp hb).1)
      (fun i s hji hik hs => by
        rw [List.getElem?_map, Option.map_eq_some_iff] at hs
        obtain ⟨c, hc, rfl⟩ := hs
        have hac := time_le_of_getElem? hsorted ha hc hji
        have hcb := time_le_of_getElem? hsorted hc hb hik
        simpa using ⟨hac, hcb.trans hwindow⟩)
    have hle := hlimited n (by omega) a.time
    omega
  · intro hkeeps n hn w
    by_contra hmany
    obtain ⟨j, k, s, s', hjk, hs, hs', hw, hw'⟩ :=
      exists_getElem?_of_lt_length_filter (not_le.mp hmany)
    rw [List.getElem?_map, Option.map_eq_some_iff] at hs hs'
    obtain ⟨a, ha, rfl⟩ := hs
    obtain ⟨b, hb, rfl⟩ := hs'
    have hlag := hkeeps j k a b (by omega) ha hb
    have hdue := due_of_getElem? ha
    have hdue' := due_of_getElem? hb
    obtain ⟨m, rfl⟩ : ∃ m, k = j + (n + 1) + m := ⟨k - (j + (n + 1)), by omega⟩
    have hrest : 0 ≤ (m : ℤ) * interval := mul_nonneg (by positivity) hinterval
    have hfirst : w ≤ a.time := (by simpa using hw : _ ∧ _).1
    have hlast : b.time ≤ w + n * interval := (by simpa using hw' : _ ∧ _).2
    unfold Beat.lag at hlag
    push_cast at hdue'
    linarith

/-- A sender that is never more than an interval late keeps the rate. -/
theorem keepsLag_of_lag_le (h : ∀ b ∈ beats interval due times, b.lag ≤ interval) :
    KeepsLag interval (beats interval due times) := by
  intro j k a b _ ha hb
  have hle := h a (List.mem_of_getElem? ha)
  have hlt := due_lt_time b (List.mem_of_getElem? hb)
  unfold Beat.lag at hle ⊢
  omega

end Pace

end Gwems
