import Mathlib.Data.Rat.Floor
import Mathlib.Tactic.Linarith
import Mathlib.Tactic.FieldSimp
import Mathlib.Tactic.Ring

/-! # Rounding rational bounds

    Integer division rounds towards zero.  Adding almost one before it makes it round up, but only
    above `-1`; below, it still stays on the same side of zero.  So as bounds of integers that are
    not negative, fractions are rounded up exactly. -/

namespace PbRounding

/-- Towards zero. -/
def truncate (q : ℚ) : ℤ := if 0 ≤ q then ⌊q⌋ else ⌈q⌉

/-- **INTEGER DIVISION** of a fraction, in lowest terms or not. -/
theorem tdiv_eq_truncate (n : ℤ) {d : ℕ} (hd : 0 < d) : n.tdiv d = truncate (n / d) := by
  have hdq : (0 : ℚ) < d := Nat.cast_pos.mpr hd
  by_cases hn : 0 ≤ n
  · have hq : (0 : ℚ) ≤ n / d := div_nonneg (Int.cast_nonneg hn) hdq.le
    rw [truncate, if_pos hq, Int.tdiv_eq_ediv_of_nonneg hn]
    exact (Rat.floor_intCast_div_natCast n d).symm
  · have hq : ¬ (0 : ℚ) ≤ n / d := by
      have hneg : (n : ℚ) < 0 := Int.cast_lt_zero.mpr (not_le.mp hn)
      exact not_le.mpr (div_neg_of_neg_of_pos hneg hdq)
    -- the fraction is negative, and so rounded up
    rw [truncate, if_neg hq, ← neg_neg n, Int.neg_tdiv, Int.tdiv_eq_ediv_of_nonneg (by omega),
      Int.cast_neg, neg_div, Int.ceil_neg]
    exact congrArg _ (Rat.floor_intCast_div_natCast (-n) d).symm

theorem truncate_intCast (n : ℤ) : truncate n = n := by
  rw [truncate, Int.floor_intCast, Int.ceil_intCast, ite_self]

theorem truncate_nonpos {q : ℚ} (h : q ≤ 0) : truncate q ≤ 0 := by
  rw [truncate]
  split_ifs with hq
  · rw [le_antisymm h hq]
    exact (Int.floor_zero).le
  · exact Int.ceil_nonpos.mpr h

theorem truncate_mono {p q : ℚ} (h : p ≤ q) : truncate p ≤ truncate q := by
  by_cases hp : 0 ≤ p
  · rw [truncate, truncate, if_pos hp, if_pos (hp.trans h)]
    exact Int.floor_mono h
  · by_cases hq : 0 ≤ q
    · refine (truncate_nonpos (not_le.mp hp).le).trans ?_
      rw [truncate, if_pos hq]
      exact Int.floor_nonneg.mpr hq
    · rw [truncate, truncate, if_neg hp, if_neg hq]
      exact Int.ceil_mono h

section RoundUp

variable {p : ℚ} {D : ℕ}

/-- A fraction with denominator `D`, with almost one added, is rounded down to the ceiling. -/
theorem floor_add (hD : 0 < D) (hp : ∃ N : ℤ, p * D = N) : ⌊p + (D - 1) / D⌋ = ⌈p⌉ := by
  obtain ⟨N, hN⟩ := hp
  have hDq : (0 : ℚ) < D := Nat.cast_pos.mpr hD
  rw [Int.floor_eq_iff]
  constructor
  · -- both sides are multiples of `1 / D`
    have hlt : (⌈p⌉ : ℚ) * D < N + D := by
      have hmul := mul_lt_mul_of_pos_right (Int.ceil_lt_add_one p) hDq
      rw [add_mul, hN, one_mul] at hmul
      exact hmul
    -- less, between integers, is at most one less
    have hle : ⌈p⌉ * D ≤ N + D - 1 := by
      have hint : ⌈p⌉ * (D : ℤ) < N + D := by exact_mod_cast hlt
      omega
    have hle' : (⌈p⌉ : ℚ) * D ≤ N + D - 1 := by exact_mod_cast hle
    have hsum : p + (D - 1) / D = (N + D - 1) / D := by
      rw [← hN]
      field_simp
      ring
    rw [hsum, le_div_iff₀ hDq]
    exact hle'
  · have hfrac : ((D : ℚ) - 1) / D < 1 := by
      rw [div_lt_one hDq]
      linarith
    exact add_lt_add_of_le_of_lt (Int.le_ceil p) hfrac

theorem truncate_add (hD : 0 < D) (hp : ∃ N : ℤ, p * D = N) (h : 0 ≤ p + (D - 1) / D) :
    truncate (p + (D - 1) / D) = ⌈p⌉ := by
  rw [truncate, if_pos h, floor_add hD hp]

theorem truncate_add_of_nonneg (hD : 0 < D) (hp : ∃ N : ℤ, p * D = N) (h : 0 ≤ p) :
    truncate (p + (D - 1) / D) = ⌈p⌉ := by
  have hDq : (1 : ℚ) ≤ D := Nat.one_le_cast.mpr hD
  exact truncate_add hD hp (add_nonneg h (div_nonneg (by linarith) (by linarith)))

/-- Below, the fraction is negative. -/
theorem neg_of_add_neg (hD : 0 < D) (h : ¬ 0 ≤ p + ((D : ℚ) - 1) / D) : p < 0 := by
  have hDq : (1 : ℚ) ≤ D := Nat.one_le_cast.mpr hD
  have hfrac : (0 : ℚ) ≤ ((D : ℚ) - 1) / D := div_nonneg (by linarith) (by linarith)
  linarith [not_le.mp h]

/-- **ROUNDED UP**, as a lower bound. -/
theorem truncate_add_le_iff (hD : 0 < D) (hp : ∃ N : ℤ, p * D = N) {x : ℤ} (hx : 0 ≤ x) :
    truncate (p + (D - 1) / D) ≤ x ↔ p ≤ x := by
  by_cases h : 0 ≤ p + (D - 1) / D
  · rw [truncate_add hD hp h, Int.ceil_le]
  · have hxq : (0 : ℚ) ≤ x := Int.cast_nonneg hx
    exact iff_of_true ((truncate_nonpos (not_le.mp h).le).trans hx)
      ((neg_of_add_neg hD h).le.trans hxq)

/-- And as an upper bound. -/
theorem lt_truncate_add_iff (hD : 0 < D) (hp : ∃ N : ℤ, p * D = N) {x : ℤ} (hx : 0 ≤ x) :
    x < truncate (p + (D - 1) / D) ↔ (x : ℚ) < p := by
  by_cases h : 0 ≤ p + (D - 1) / D
  · rw [truncate_add hD hp h, Int.lt_ceil]
  · have hxq : (0 : ℚ) ≤ x := Int.cast_nonneg hx
    exact iff_of_false (not_lt.mpr ((truncate_nonpos (not_le.mp h).le).trans hx))
      (not_lt.mpr ((neg_of_add_neg hD h).le.trans hxq))

end RoundUp

end PbRounding
