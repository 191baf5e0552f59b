import Mathlib.Algebra.BigOperators.Group.Finset.Basic
import Mathlib.Algebra.BigOperators.Group.Finset.Piecewise
import Mathlib.Algebra.BigOperators.Ring.Finset
import Mathlib.Algebra.Order.BigOperators.Group.Finset
import Mathlib.Algebra.Order.Ring.Int
import Mathlib.Order.Bounds.Basic
import Mathlib.Tactic.Linarith
import Mathlib.Tactic.Ring

/-! # Affine functions on boxes — the extreme corners

    An affine function is extreme at a corner of a box, and the sign of each
    coefficient says at which: a corner is `Least` if each coordinate is at the
    lower end of its interval where the coefficient is not negative, at the upper
    one where it is not positive.  Where the coefficient is zero, or the interval a
    point, both will do, so a choice made from the signs alone stays right. -/

namespace PbAffineBox

variable {ι R : Type} [CommRing R] {s : Finset ι} {c lo hi x y : ι → R}

/-- The affine function with a constant and coefficients in some coordinates. -/
def affine (s : Finset ι) (a : R) (c x : ι → R) : R := a + ∑ j ∈ s, c j * x j

theorem affine_congr (a : R) (h : ∀ j ∈ s, x j = y j) :
    affine s a c x = affine s a c y :=
  congrArg (a + ·) (Finset.sum_congr rfl fun j hj => by rw [h j hj])

/-- One coordinate moves. -/
theorem affine_update [DecidableEq ι] (a : R) (c x : ι → R) {j : ι} (hj : j ∈ s) (v : R) :
    affine s a c (Function.update x j v) = affine s a c x + c j * (v - x j) := by
  have hsum : ∀ z : ι → R, ∑ k ∈ s, c k * z k = c j * z j + ∑ k ∈ s \ {j}, c k * z k := by
    intro z
    rw [← Finset.sum_erase_add s _ hj, Finset.sdiff_singleton_eq_erase, add_comm]
  have hrest : ∑ k ∈ s \ {j}, c k * Function.update x j v k = ∑ k ∈ s \ {j}, c k * x k := by
    refine Finset.sum_congr rfl fun k hk => ?_
    have hne : k ≠ j := fun h => (Finset.mem_sdiff.mp hk).2 (Finset.mem_singleton.mpr h)
    rw [Function.update_of_ne hne]
  unfold affine
  rw [hsum, hsum x, hrest, Function.update_self]
  ring

/-- A coordinate that is given a value moves to the constant. -/
theorem affine_update_eq [DecidableEq ι] (a : R) (c x : ι → R) {j : ι} (hj : j ∈ s) (v : R) :
    affine s a c (Function.update x j v)
      = affine s (a + c j * v) (Function.update c j 0) x := by
  have hc : affine s a (Function.update c j 0) x = affine s a c x - c j * x j := by
    have hswap : ∀ b : ι → R, affine s a b x = affine s a x b := fun b =>
      congrArg (a + ·) (Finset.sum_congr rfl fun k _ => mul_comm _ _)
    rw [hswap, affine_update a x c hj, ← hswap]
    ring
  have hconst : affine s (a + c j * v) (Function.update c j 0) x
      = affine s a (Function.update c j 0) x + c j * v := by
    unfold affine; ring
  rw [hconst, hc, affine_update a c x hj]
  ring

theorem affine_neg (a : R) (c x : ι → R) : affine s (-a) (-c) x = -affine s a c x := by
  unfold affine
  rw [neg_add, ← Finset.sum_neg_distrib]
  exact congrArg (-a + ·) (Finset.sum_congr rfl fun j _ => by rw [Pi.neg_apply]; ring)

variable [LinearOrder R]

/-- Both ends of each interval belong to a box. -/
def Box (s : Finset ι) (lo hi : ι → R) : Set (ι → R) :=
  {x | ∀ j ∈ s, lo j ≤ x j ∧ x j ≤ hi j}

/-- A corner that the signs of the coefficients choose. -/
def Least (s : Finset ι) (c lo hi x : ι → R) : Prop :=
  ∀ j ∈ s, x j = lo j ∧ 0 ≤ c j ∨ x j = hi j ∧ c j ≤ 0

/-- A chosen corner is a corner. -/
theorem Least.mem_box (h : Least s c lo hi x) (hne : ∀ j ∈ s, lo j ≤ hi j) :
    x ∈ Box s lo hi := by
  intro j hj
  rcases h j hj with ⟨hx, -⟩ | ⟨hx, -⟩
  · rw [hx]; exact ⟨le_rfl, hne j hj⟩
  · rw [hx]; exact ⟨hne j hj, le_rfl⟩

variable [IsStrictOrderedRing R]

/-- Nowhere in the box is the function smaller. -/
theorem Least.le (h : Least s c lo hi x) (a : R) (hy : y ∈ Box s lo hi) :
    affine s a c x ≤ affine s a c y := by
  refine add_le_add_right (Finset.sum_le_sum ?_) a
  intro j hj
  obtain ⟨hlo, hhi⟩ := hy j hj
  rcases h j hj with ⟨hx, hc⟩ | ⟨hx, hc⟩
  · rw [hx]; exact mul_le_mul_of_nonneg_left hlo hc
  · rw [hx]; exact mul_le_mul_of_nonpos_left hhi hc

/-- The other way round, where the negated coefficients choose. -/
theorem Least.ge (h : Least s (-c) lo hi x) (a : R) (hy : y ∈ Box s lo hi) :
    affine s a c y ≤ affine s a c x := by
  have hle := h.le (-a) hy
  rw [affine_neg, affine_neg] at hle
  exact neg_le_neg_iff.mp hle

end PbAffineBox
