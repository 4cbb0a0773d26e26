import Gwems.Experiments.QuadSpaces
import Gwems.WebContent.QuadSpacesVisibility

/-!
# `QuadSpaces`: neighbours and levels

A level of a tracker is a size of cubes. On one level `surroundingSpaceNames` takes 27 points that
are three quarters of a cube apart, and gives the names of their cubes. These are the names of all
points in between: cutting to integers is monotone, and takes numbers less than one apart to
integers at most one apart (`exists_step_truncate_eq`), so that no cube lies between two of the
points on any axis (`surroundingSpaceNames_covers`).

From one level to the next the name of a position loses its first quad. What is left is the name
on the larger level only where the digit that was dropped did not carry (`nests_iff_of_turn`): a
number from two to three counts as the next four less some, but is cut to no four at all.
-/

namespace Gwems

/-! ### Steps between integers -/

/-- **No integer lies between the steps**: numbers within a distance less than one are cut to the
same integer as the number in the middle or one of those at this distance. -/
theorem exists_step_truncate_eq {x y δ : ℚ} (hδ : δ < 1) (h : |x - y| ≤ δ) :
    ∃ k ∈ QuadSpaces.steps, truncate x = truncate (y + k * δ) := by
  obtain ⟨hlow, hhigh⟩ := abs_le.mp h
  rcases le_total x y with hxy | hxy
  · have hfirst : truncate (y - δ) ≤ truncate x := truncate_mono (by linarith)
    have hlast : truncate x ≤ truncate y := truncate_mono hxy
    have hone : truncate y ≤ truncate (y - δ) + 1 :=
      (truncate_mono (by linarith)).trans (truncate_add_one_le _)
    rcases (by omega : truncate x = truncate (y - δ) ∨ truncate x = truncate y) with heq | heq
    · exact ⟨-1, by decide, by rw [heq]; congr 1; push_cast; ring⟩
    · exact ⟨0, by decide, by rw [heq]; congr 1; push_cast; ring⟩
  · have hfirst : truncate y ≤ truncate x := truncate_mono hxy
    have hlast : truncate x ≤ truncate (y + δ) := truncate_mono (by linarith)
    have hone : truncate (y + δ) ≤ truncate y + 1 :=
      (truncate_mono (by linarith)).trans (truncate_add_one_le _)
    rcases (by omega : truncate x = truncate y ∨ truncate x = truncate (y + δ)) with heq | heq
    · exact ⟨0, by decide, by rw [heq]; congr 1; push_cast; ring⟩
    · exact ⟨1, by decide, by rw [heq]; congr 1; push_cast; ring⟩

/-- The same for numbers that are scaled before they are cut. -/
theorem exists_step_truncate_mul_eq {x y δ power : ℚ} (hpower : 0 ≤ power) (hδ : δ * power < 1)
    (h : |x - y| ≤ δ) :
    ∃ k ∈ QuadSpaces.steps, truncate (x * power) = truncate ((y + k * δ) * power) := by
  have hscaled : |x * power - y * power| ≤ δ * power := by
    rw [← sub_mul, abs_mul, abs_of_nonneg hpower]
    exact mul_le_mul_of_nonneg_right h hpower
  obtain ⟨k, hk, heq⟩ := exists_step_truncate_eq hδ hscaled
  refine ⟨k, hk, heq.trans (congrArg truncate ?_)⟩
  ring

namespace Experiments

open QuadSpaces (Quad Near steps surroundings mem_surroundings size_map_lt ofSignedDigits_of_turn)

/-! ### Neighbours -/

/-- `decompose`, for a position of which the coordinates are any numbers. -/
def decomposeAt (v : Vector3 ℚ) (bias : ℤ) : List String :=
  (quads (v.map fun x => toLong (x * scalb (toInt32 (-bias)))) bias).map Quad.toString

theorem decompose_eq_decomposeAt (v : Vector3d) (bias : ℤ) :
    decompose v bias = decomposeAt (v.map Double.val) bias := rfl

/-- `QuadSpaces.surroundingSpaceNames(position, start, end)`. The three loops inside are those of
the browser. -/
def surroundingSpaceNames (position : Vector3 ℚ) (start stop : ℤ) : Finset String :=
  let biases := (List.range (stop - start).toNat).map fun n : ℕ => start + n
  biases.foldl (fun set bias => (surroundings .exact position bias).foldl (fun set tmp =>
    insert (listToString (decomposeAt tmp bias)) set) set) ∅

theorem mem_foldl_insert {α β : Type*} [DecidableEq β] {f : α → β} {b : β} (list : List α)
    (set : Finset β) :
    b ∈ list.foldl (fun set a => insert (f a) set) set ↔ b ∈ set ∨ ∃ a ∈ list, b = f a := by
  induction list generalizing set with
  | nil => simp
  | cons a list ih =>
    rw [List.foldl_cons, ih, Finset.mem_insert, List.exists_mem_cons_iff]
    exact or_assoc.trans or_left_comm

theorem mem_surroundingSpaceNames {position : Vector3 ℚ} {bias : ℤ} {key : String} :
    key ∈ surroundingSpaceNames position bias (bias + 1) ↔
      ∃ tmp ∈ surroundings .exact position bias, key = listToString (decomposeAt tmp bias) := by
  have hone : (List.range (bias + 1 - bias).toNat).map (fun n : ℕ => bias + n) = [bias] := by
    simp
  rw [surroundingSpaceNames, hone, List.foldl_cons, List.foldl_nil, mem_foldl_insert]
  simp

/-- The points around a position represent all points near it: one of them has the same scaled and
cut coordinates. -/
theorem exists_mem_surroundings {p q : Vector3 ℚ} {bias : ℤ} {power : ℚ} (hpower : 0 ≤ power)
    (hlength : 2 ^ bias * 3 / 4 * power < 1) (hnear : Near bias p q) :
    ∃ tmp ∈ surroundings .exact q bias,
      (p.map fun x => truncate (x * power)) = tmp.map fun x => truncate (x * power) := by
  have hcoord : ∀ x y : ℚ, |x - y| ≤ 3 / 4 * 2 ^ bias → ∃ k ∈ steps,
      truncate (x * power) = truncate (Arithmetic.exact.shifted bias k y * power) := by
    intro x y h
    exact exists_step_truncate_mul_eq hpower hlength (h.trans_eq (by ring))
  obtain ⟨kx, hkx, hx⟩ := hcoord _ _ hnear.1
  obtain ⟨ky, hky, hy⟩ := hcoord _ _ hnear.2.1
  obtain ⟨kz, hkz, hz⟩ := hcoord _ _ hnear.2.2
  exact ⟨_, mem_surroundings.mpr ⟨kx, hkx, ky, hky, kz, hkz, rfl⟩, Vector3.ext hx hy hz⟩

/-- Three quarters of a cube are less than one. -/
theorem length_mul_lt (bias : ℤ) : (2 : ℚ) ^ bias * 3 / 4 * 2 ^ (-bias) < 1 := by
  have hone : (2 : ℚ) ^ bias * 2 ^ (-bias) = 1 := by
    rw [← zpow_add₀ (by norm_num), add_neg_cancel, zpow_zero]
  calc (2 : ℚ) ^ bias * 3 / 4 * 2 ^ (-bias) = 3 / 4 * (2 ^ bias * 2 ^ (-bias)) := by ring
    _ < 1 := by rw [hone]; norm_num

/-- The same for the power that the server scales by, which is not that of `-bias` for the smallest
`int`. -/
theorem length_mul_scalb_lt {bias : ℤ} (hbias : IsInt32 bias) :
    (2 : ℚ) ^ bias * 3 / 4 * scalb (toInt32 (-bias)) < 1 := by
  have hle : toInt32 (-bias) ≤ -bias := by
    have hint := isInt32_toInt32 (-bias)
    have hmod := toInt32_modEq (-bias)
    rw [IsInt32] at hbias hint
    rw [Int.ModEq] at hmod
    omega
  have hpos : (0 : ℚ) ≤ 2 ^ bias * 3 / 4 := by positivity
  exact (mul_le_mul_of_nonneg_left (zpow_le_zpow_right₀ (by norm_num) hle) hpos).trans_lt
    (length_mul_lt bias)

/-- **The neighbours cover the neighbourhood**, in the browser and on the server: the cube of a
point that is not farther than three quarters of a cube from the position on any axis has one of the
names around the position. -/
theorem surroundingSpaceNames_covers {bias : ℤ} (heven : Even bias) {p q : Vector3 ℚ}
    (hnear : Near bias p q) :
    QuadSpaces.listToString (QuadSpaces.decompose .exact p bias) ∈
        (QuadSpaces.surroundingSpaceNames .exact q bias (bias + 1)).keys ∧
      (IsInt32 bias → IsInt32 (bias + 1) ∧
        listToString (decomposeAt p bias) ∈ surroundingSpaceNames q bias (bias + 1)) := by
  refine ⟨QuadSpaces.mem_surroundingSpaceNames.mpr ?_, fun hbias => ⟨?_, ?_⟩⟩
  · obtain ⟨tmp, htmp, hcells⟩ := exists_mem_surroundings
      (by positivity : (0 : ℚ) ≤ 2 ^ (-bias)) (length_mul_lt bias) hnear
    have hscale : QuadSpaces.scale .exact p bias = QuadSpaces.scale .exact tmp bias :=
      congrArg (Vector3.map toInt32) hcells
    exact ⟨tmp, htmp, by rw [QuadSpaces.decompose, QuadSpaces.decompose, hscale]⟩
  · -- the largest `int` is odd
    obtain ⟨n, rfl⟩ := heven
    rw [IsInt32] at hbias ⊢
    omega
  · have hpower : (0 : ℚ) ≤ scalb (toInt32 (-bias)) := zpow_nonneg (by norm_num) _
    obtain ⟨tmp, htmp, hcells⟩ := exists_mem_surroundings hpower (length_mul_scalb_lt hbias) hnear
    have hscale : (p.map fun x => toLong (x * scalb (toInt32 (-bias)))) =
        tmp.map fun x => toLong (x * scalb (toInt32 (-bias))) :=
      congrArg (Vector3.map fun n => max (-2 ^ 63) (min (2 ^ 63 - 1) n)) hcells
    exact mem_surroundingSpaceNames.mpr ⟨tmp, htmp, by rw [decomposeAt, decomposeAt, hscale]⟩

/-- Two points on both sides of the origin, which is in the middle of a cube of one meter. -/
theorem surroundingSpaceNames_covers_origin :
    QuadSpaces.listToString (QuadSpaces.decompose .exact ⟨1 / 4, 0, 0⟩ 0) ∈
        (QuadSpaces.surroundingSpaceNames .exact ⟨-1 / 2, 0, 0⟩ 0 (0 + 1)).keys ∧
      (IsInt32 0 → IsInt32 (0 + 1) ∧ listToString (decomposeAt ⟨1 / 4, 0, 0⟩ 0) ∈
        surroundingSpaceNames ⟨-1 / 2, 0, 0⟩ 0 (0 + 1)) :=
  surroundingSpaceNames_covers Even.zero (by norm_num [Near, abs_le])

/-! ### Nesting -/

theorem four_mul_shiftOut_modEq (x : ℤ) : 4 * shiftOut x ≡ 4 * signedCarry x [ZMOD 2 ^ 64] := by
  have hsum := toInt64_spec (x + 2)
  rw [shiftOut_eq]
  rw [Int.ModEq, signedCarry]
  omega

/-- `long`s with the same quads are the same. -/
theorem quads_injective {v w : Vector3 ℤ} {p q : ℤ} (hv : v.Forall IsInt64)
    (hw : w.Forall IsInt64) (h : quads v p = quads w q) : v = w := by
  have hvalue : ∀ {c : Vector3 ℤ → ℤ}, (∀ f v, c (Vector3.map f v) = f (c v)) → ∀ v p,
      ofSignedDigits ((quads v p).map fun q => c q.digits) ≡ c v [ZMOD 2 ^ 64] := fun hc v p =>
    ofSignedDigits_of_turn quads_eq shiftOut_zero
      (fun _ hx => natAbs_shiftOut_lt hx) four_mul_shiftOut_modEq hc v p
  have hcoord : ∀ c : Vector3 ℤ → ℤ, (∀ f v, c (Vector3.map f v) = f (c v)) →
      IsInt64 (c v) → IsInt64 (c w) → c v = c w := by
    intro c hc hcv hcw
    have hmod := (hvalue hc v p).symm
    rw [h] at hmod
    have hsame := hmod.trans (hvalue hc w q)
    rw [IsInt64] at hcv hcw
    rw [Int.ModEq] at hsame
    omega
  exact Vector3.ext (hcoord Vector3.x (fun _ _ => rfl) hv.1 hw.1)
    (hcoord Vector3.y (fun _ _ => rfl) hv.2.1 hw.2.1)
    (hcoord Vector3.z (fun _ _ => rfl) hv.2.2 hw.2.2)

/-- What is left of a list of more than one quad, without the smallest, is the list for the next
level. -/
def Nests (decompose : ℤ → List String) (bias : ℤ) : Prop :=
  1 < (decompose bias).length → (decompose bias).tail = decompose (bias + 2)

/-- Dropping the last digit of the number is dividing it by four, towards zero: the last two bits do
not carry. -/
def DropsDigit (n : ℤ) : Prop := if 0 ≤ n then n % 4 ≤ 1 else -n % 4 ≤ 2

instance (n : ℤ) : Decidable (DropsDigit n) := inferInstanceAs (Decidable (ite _ _ _))

theorem tdiv_four_spec (n : ℤ) : 0 ≤ n ∧ n.tdiv 4 = n / 4 ∨ n < 0 ∧ n.tdiv 4 = -(-n / 4) := by
  rcases le_or_gt 0 n with hn | hn
  · exact .inl ⟨hn, Int.tdiv_eq_ediv_of_nonneg hn⟩
  · refine .inr ⟨hn, ?_⟩
    rw [← neg_neg n, Int.neg_tdiv, Int.tdiv_eq_ediv_of_nonneg (by omega), neg_neg]

theorem signedCarry_eq_tdiv_iff (n : ℤ) : signedCarry n = n.tdiv 4 ↔ DropsDigit n := by
  have hdiv := tdiv_four_spec n
  rw [signedCarry, DropsDigit]
  split <;> omega

/-- The last two numbers of a range are not divided by four, also where the sum with two wraps
around. -/
theorem not_dropsDigit_of_last {n m : ℤ} (hn : n = 4 * m + 2 ∨ n = 4 * m + 3) (hm : 0 ≤ m) :
    ¬DropsDigit n := by
  rw [DropsDigit]
  rw [if_pos (by omega)]
  omega

/-- What the loop on the server shifts out is what a level more divides by, exactly for such
numbers. -/
theorem shiftOut_eq_tdiv_iff {n : ℤ} (hn : IsInt64 n) : shiftOut n = n.tdiv 4 ↔ DropsDigit n := by
  have hdiv := tdiv_four_spec n
  rw [IsInt64] at hn
  by_cases hlast : n ≤ 2 ^ 63 - 3
  · rw [shiftOut_eq_signedCarry ⟨hn.1, hlast⟩]
    exact signedCarry_eq_tdiv_iff n
  · have hsum := toInt64_spec (n + 2)
    refine iff_of_false ?_ (not_dropsDigit_of_last (m := 2 ^ 61 - 1) (by omega) (by omega))
    rw [shiftOut_eq]
    omega

/-- The same in the browser. -/
theorem shiftOut_browser_eq_tdiv_iff {n : ℤ} (hn : IsInt32 n) :
    QuadSpaces.shiftOut n = n.tdiv 4 ↔ DropsDigit n := by
  have hdiv := tdiv_four_spec n
  by_cases hlast : n < 2 ^ 31 - 2
  · rw [IsInt32] at hn
    rw [(shiftOut_eq_shiftOut_iff hn).mpr hlast]
    exact shiftOut_eq_tdiv_iff (by unfold IsInt64; omega)
  · refine iff_of_false ?_ (not_dropsDigit_of_last (m := 2 ^ 29 - 1) ?_ (by omega))
    · have hmod := toInt32_modEq (4 * signedCarry n)
      have hmem := isInt32_toInt32 (4 * signedCarry n)
      rw [QuadSpaces.shiftOut_eq]
      rw [IsInt32] at hn hmem
      rw [Int.ModEq, signedCarry] at hmod
      rw [signedCarry] at hmem ⊢
      omega
    · rw [IsInt32] at hn
      omega

/-- Strings can be compared as quads. -/
theorem nests_iff_of_quads {quads : Vector3 ℤ → ℤ → List Quad} {scale : ℤ → Vector3 ℤ} {bias : ℤ} :
    Nests (fun bias => (quads (scale bias) bias).map Quad.toString) bias ↔
      (1 < (quads (scale bias) bias).length →
        (quads (scale bias) bias).tail = quads (scale (bias + 2)) (bias + 2)) := by
  have hinj := List.map_injective_iff.mpr fun _ _ h => Quad.toString_injective h
  rw [Nests, List.length_map, ← List.map_tail]
  exact imp_congr_right fun _ => hinj.eq_iff

/-- **Nesting**, for a loop over integers of any width: the next level continues the list if and
only if it starts from what the loop shifts out, or the loop is at its end. -/
theorem nests_iff_of_turn {quads : Vector3 ℤ → ℤ → List Quad} {shift next : ℤ → ℤ}
    (turn : ∀ v p, quads v p = ⟨v.map signedDigit, p⟩ ::
      if v.map shift = .zero then [] else quads (v.map shift) (next p))
    {scale : ℤ → Vector3 ℤ} {bias : ℤ}
    (hnext : 1 < (quads (scale bias) bias).length → next bias = bias + 2)
    (hinj : quads ((scale bias).map shift) (bias + 2) = quads (scale (bias + 2)) (bias + 2) →
      (scale bias).map shift = scale (bias + 2)) :
    Nests (fun bias => (quads (scale bias) bias).map Quad.toString) bias ↔
      (scale bias).map shift = .zero ∨ (scale bias).map shift = scale (bias + 2) := by
  rw [nests_iff_of_quads]
  have heq := turn (scale bias) bias
  split at heq
  next hend =>
    -- a list of one quad has nothing to continue
    refine iff_of_true (fun hlength => ?_) (.inl hend)
    rw [heq] at hlength
    exact absurd hlength (lt_irrefl 1)
  next hgo =>
    have hlength : 1 < (quads (scale bias) bias).length := by
      rw [heq, turn ((scale bias).map shift)]
      simp
    rw [hnext hlength] at heq
    rw [or_iff_right hgo]
    constructor
    · intro htail
      have hrest := htail hlength
      rw [heq, List.tail_cons] at hrest
      exact hinj hrest
    · intro h _
      rw [heq, List.tail_cons, h]

/-- Where the next level starts from the quarters of the numbers, these are what the loop shifts out
exactly if the last digits do not carry. -/
theorem shift_eq_zero_or_iff {shift : ℤ → ℤ} {v w : Vector3 ℤ}
    (hw : w = v.map fun n => n.tdiv 4)
    (hcoord : v.Forall fun n =>
      (shift n = n.tdiv 4 ↔ DropsDigit n) ∧ (shift n = 0 → DropsDigit n)) :
    v.map shift = .zero ∨ v.map shift = w ↔ v.Forall DropsDigit := by
  have hsame : v.map shift = w ↔ v.Forall DropsDigit := by
    rw [hw, Vector3.ext_iff]
    exact and_congr hcoord.1.1 (and_congr hcoord.2.1.1 hcoord.2.2.1)
  rw [hsame, or_iff_right_iff_imp]
  intro hzero
  obtain ⟨hx, hy, hz⟩ := Vector3.ext_iff.mp hzero
  exact ⟨hcoord.1.2 hx, hcoord.2.1.2 hy, hcoord.2.2.2 hz⟩

theorem cell_add_two (bias : ℤ) (x : ℚ) : cell (bias + 2) x = (cell bias x).tdiv 4 := by
  have hpower : scalb (-(bias + 2)) = scalb (-bias) / 4 := by
    rw [scalb, scalb, neg_add, zpow_add₀ (by norm_num)]
    norm_num [div_eq_mul_inv]
  rw [cell, cell, hpower, ← mul_div_assoc, truncate_div_four]

section Nesting

variable {v : Vector3d} {bias : ℤ}

theorem dropsDigit_of_mem {n : ℤ} (h : -2 ≤ n ∧ n ≤ 1) : DropsDigit n := by
  rw [DropsDigit]
  split <;> omega

theorem isInt64_shiftOut (n : ℤ) : IsInt64 (shiftOut n) := by
  have hsum := toInt64_spec (n + 2)
  rw [shiftOut_eq]
  rw [IsInt64]
  omega

theorem forall_isInt64_scale (v : Vector3d) (bias : ℤ) : (scale v bias).Forall IsInt64 := by
  have hcoord : ∀ y : ℚ, IsInt64 (toLong y) := by
    intro y
    rw [IsInt64, toLong]
    omega
  exact ⟨hcoord _, hcoord _, hcoord _⟩

/-- On the server. -/
theorem nests_decompose_iff (hbias : IsInt32 bias)
    (hv : v.Forall fun x => IsInt64 (cell bias x.val)) :
    Nests (decompose v) bias ↔ v.Forall fun x => DropsDigit (cell bias x.val) := by
  have hscale := scale_eq hbias hv
  have hdrops : (scale v bias).Forall DropsDigit ↔
      v.Forall fun x => DropsDigit (cell bias x.val) := by
    rw [hscale]
    exact Iff.rfl
  rw [← hdrops]
  by_cases hlarge : 1024 ≤ bias
  · -- there is only the cube at the origin, and the next exponent may not be an `int`
    have hzero := scale_eq_zero v hbias hlarge
    refine iff_of_true (fun hlength => ?_) ?_
    · have hend : (Vector3.zero : Vector3 ℤ).map shiftOut = .zero := rfl
      rw [decompose, List.length_map, hzero, quads_eq, if_pos hend] at hlength
      exact absurd hlength (lt_irrefl 1)
    · rw [hzero]
      exact ⟨by decide, by decide, by decide⟩
  · have hbias' : IsInt32 (bias + 2) := by
      rw [IsInt32] at hbias ⊢
      omega
    have hcells : ∀ n, IsInt64 n → IsInt64 (n.tdiv 4) := by
      intro n hn
      have hdiv := tdiv_four_spec n
      rw [IsInt64] at hn ⊢
      omega
    have hscale' : scale v (bias + 2) = (scale v bias).map fun n => n.tdiv 4 := by
      rw [hscale, scale_eq hbias' (by
        simp only [cell_add_two]
        exact ⟨hcells _ hv.1, hcells _ hv.2.1, hcells _ hv.2.2⟩)]
      simp only [cell_add_two]
      rfl
    have hcoord : ∀ n, IsInt64 n →
        (shiftOut n = n.tdiv 4 ↔ DropsDigit n) ∧ (shiftOut n = 0 → DropsDigit n) := by
      refine fun n hn => ⟨shiftOut_eq_tdiv_iff hn, fun hzero => dropsDigit_of_mem ?_⟩
      have hsum := toInt64_spec (n + 2)
      rw [shiftOut_eq] at hzero
      rw [IsInt64] at hn
      omega
    obtain ⟨hx, hy, hz⟩ := forall_isInt64_scale v bias
    exact (nests_iff_of_turn quads_eq
      (fun _ => (isInt32_toInt32 _).eq_of_modEq hbias' (toInt32_modEq _))
      (quads_injective ⟨isInt64_shiftOut _, isInt64_shiftOut _, isInt64_shiftOut _⟩
        (forall_isInt64_scale v _))).trans
      (shift_eq_zero_or_iff hscale' ⟨hcoord _ hx, hcoord _ hy, hcoord _ hz⟩)

/-- In the browser. -/
theorem nests_decompose_browser_iff {v : Vector3 ℚ} (hv : v.Forall fun x => IsInt32 (cell bias x)) :
    Nests (QuadSpaces.decompose .exact v) bias ↔ v.Forall fun x => DropsDigit (cell bias x) := by
  have hint : ∀ n : ℤ, IsInt32 n → toInt32 n = n := fun n hn =>
    (isInt32_toInt32 n).eq_of_modEq hn (toInt32_modEq n)
  have hscale : QuadSpaces.scale .exact v bias = v.map fun x => cell bias x :=
    Vector3.ext (hint _ hv.1) (hint _ hv.2.1) (hint _ hv.2.2)
  have hscale' : QuadSpaces.scale .exact v (bias + 2) =
      (QuadSpaces.scale .exact v bias).map fun n => n.tdiv 4 := by
    have hquarter : ∀ x : ℚ, IsInt32 (cell bias x) →
        toInt32 (cell (bias + 2) x) = (cell bias x).tdiv 4 := by
      intro x hx
      have hdiv := tdiv_four_spec (cell bias x)
      rw [cell_add_two]
      refine hint _ ?_
      rw [IsInt32] at hx ⊢
      omega
    rw [hscale]
    exact Vector3.ext (hquarter _ hv.1) (hquarter _ hv.2.1) (hquarter _ hv.2.2)
  have hcoord : ∀ n, IsInt32 n → (QuadSpaces.shiftOut n = n.tdiv 4 ↔ DropsDigit n) ∧
      (QuadSpaces.shiftOut n = 0 → DropsDigit n) := by
    refine fun n hn => ⟨shiftOut_browser_eq_tdiv_iff hn, fun hzero => dropsDigit_of_mem ?_⟩
    have hmod := toInt32_modEq (4 * signedCarry n)
    have hmem := isInt32_toInt32 (4 * signedCarry n)
    rw [QuadSpaces.shiftOut_eq] at hzero
    rw [IsInt32] at hn hmem
    rw [Int.ModEq, signedCarry] at hmod
    rw [signedCarry] at hmem hzero
    omega
  have hdrops : (QuadSpaces.scale .exact v bias).Forall DropsDigit ↔
      v.Forall fun x => DropsDigit (cell bias x) := by
    rw [hscale]
    exact Iff.rfl
  rw [← hdrops]
  obtain ⟨hx, hy, hz⟩ := QuadSpaces.forall_isInt32_scale (A := .exact) v bias
  exact (nests_iff_of_turn QuadSpaces.quads_eq (fun _ => rfl)
    (QuadSpaces.quads_injective ⟨isInt32_shiftOut _, isInt32_shiftOut _, isInt32_shiftOut _⟩
      (QuadSpaces.forall_isInt32_scale v _))).trans
    (shift_eq_zero_or_iff hscale' ⟨hcoord _ hx, hcoord _ hy, hcoord _ hz⟩)

end Nesting

end Experiments

end Gwems
