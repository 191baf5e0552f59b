import PetaBricks.IterationBoundsModel
import Mathlib.Tactic.Linarith
import Mathlib.Tactic.Ring

/-!
# Linear forms — a solver that is exact

Linear forms in the offset of a rule with one dimension, the ends of a block and a size.  Whether
a form is positive nowhere can be read off its coefficients (`nonpos_iff`): where the first
iteration of a block is less than its last, only the distance of the two has a bound.  A solver
that compares by that is exact (`solver`), so what is assumed of the computer algebra system can
be had.
-/

namespace PbIterationBounds

open PbMaxima (TryCompareResult)

/-- The coefficients of the variables, and a constant. -/
structure BlockForm where
  offset : ℤ
  iterBegin : ℤ
  iterEnd : ℤ
  size : ℤ
  const : ℤ
  deriving DecidableEq

namespace BlockForm

def eval (f : BlockForm) (s : State ℤ) : ℤ :=
  f.offset * s.offset 0 + f.iterBegin * s.iterBegin 0 + f.iterEnd * s.iterEnd 0
    + f.size * s.sizes + f.const

def add (f g : BlockForm) : BlockForm :=
  ⟨f.offset + g.offset, f.iterBegin + g.iterBegin, f.iterEnd + g.iterEnd, f.size + g.size,
    f.const + g.const⟩

def subtract (f g : BlockForm) : BlockForm :=
  ⟨f.offset - g.offset, f.iterBegin - g.iterBegin, f.iterEnd - g.iterEnd, f.size - g.size,
    f.const - g.const⟩

def offsetVar : BlockForm := ⟨1, 0, 0, 0, 0⟩

/-- Only the offset is ever replaced. -/
def replace (f what g : BlockForm) : BlockForm :=
  if what = offsetVar then
    ⟨f.offset * g.offset, f.iterBegin + f.offset * g.iterBegin, f.iterEnd + f.offset * g.iterEnd,
      f.size + f.offset * g.size, f.const + f.offset * g.const⟩
  else f

theorem eval_add (f g : BlockForm) (s : State ℤ) : (f.add g).eval s = f.eval s + g.eval s := by
  simp only [eval, add]
  ring

theorem eval_subtract (f g : BlockForm) (s : State ℤ) :
    (f.subtract g).eval s = f.eval s - g.eval s := by
  simp only [eval, subtract]
  ring

theorem eval_replace (f g : BlockForm) (s : State ℤ) :
    (f.replace offsetVar g).eval s = f.eval (s.move 0 (g.eval s)) := by
  rw [replace, if_pos rfl]
  simp only [eval, State.move, State.atPoint, Function.update_self]
  ring

/-- The formulas of a rule with one dimension. -/
def formulas : Formulas BlockForm ℤ where
  dimensions := 1
  eval := eval
  integer := fun n => ⟨0, 0, 0, 0, n⟩
  add := add
  subtract := subtract
  normalize := id
  replace := replace
  offsetVar := fun _ => offsetVar
  beginVar := fun _ => ⟨0, 1, 0, 0, 0⟩
  endVar := fun _ => ⟨0, 0, 1, 0, 0⟩
  eval_integer := fun n s => by simp only [eval]; ring
  eval_add := eval_add
  eval_subtract := eval_subtract
  eval_normalize := fun _ _ => rfl
  eval_replace := fun f j g s hj => by
    rw [Nat.lt_one_iff.mp hj]
    exact eval_replace f g s
  eval_beginVar := fun j s hj => by
    rw [Nat.lt_one_iff.mp hj]
    simp only [eval]; ring
  eval_endVar := fun j s hj => by
    rw [Nat.lt_one_iff.mp hj]
    simp only [eval]; ring

/-! ## Forms that are positive nowhere -/

/-- Not positive, whatever the variables are, or for the blocks of two iterations and more. -/
def nonpos (wide : Bool) (f : BlockForm) : Bool :=
  f.offset = 0 && f.size = 0 && f.iterBegin = -f.iterEnd &&
    if wide then f.iterEnd ≤ 0 && 2 * f.iterEnd + f.const ≤ 0
    else f.iterEnd = 0 && f.const ≤ 0

/-- What a form of one variable is bounded by. -/
theorem coeff_nonpos {p q : ℤ} (h : ∀ t : ℤ, 0 ≤ t → p * t + q ≤ 0) : p ≤ 0 := by
  by_contra hp
  have ht := h (|q| + 1) (by positivity)
  have hq := neg_abs_le q
  have hmul : |q| + 1 ≤ p * (|q| + 1) :=
    le_mul_of_one_le_left (by positivity) (by omega)
  omega

theorem coeff_eq_zero {p q : ℤ} (h : ∀ t : ℤ, p * t + q ≤ 0) : p = 0 := by
  have hpos := coeff_nonpos fun t _ => h t
  have hneg : -p ≤ 0 := coeff_nonpos (q := q) fun t _ => by
    have := h (-t)
    linarith
  omega

theorem nonpos_iff (f : BlockForm) :
    f.nonpos true = true ↔
      ∀ s : State ℤ, s.iterBegin 0 < s.iterEnd 0 - 1 → f.eval s ≤ 0 := by
  obtain ⟨p, q, r, m, k⟩ := f
  simp only [nonpos, if_true, Bool.and_eq_true, decide_eq_true_eq, eval]
  constructor
  · rintro ⟨⟨⟨rfl, rfl⟩, rfl⟩, hr, hk⟩ s hs
    have hmul := mul_nonneg_of_nonpos_of_nonpos hr
      (show 2 - (s.iterEnd 0 - s.iterBegin 0) ≤ 0 by omega)
    linarith
  · intro h
    -- one variable at a time, the others fixed at a block of two iterations
    have hp : p = 0 := coeff_eq_zero (q := r * 2 + k) fun t => by
      have := h ⟨0, fun _ => t, fun _ => 0, fun _ => 2⟩ (by norm_num)
      linarith
    have hm : m = 0 := coeff_eq_zero (q := r * 2 + k) fun t => by
      have := h ⟨t, fun _ => 0, fun _ => 0, fun _ => 2⟩ (by norm_num)
      linarith
    have hqr : q + r = 0 := coeff_eq_zero (q := r * 2 + k) fun t => by
      have := h ⟨0, fun _ => 0, fun _ => t, fun _ => t + 2⟩
        (show t < t + 2 - 1 by omega)
      linarith
    have hr : r ≤ 0 := coeff_nonpos (q := r * 2 + k) fun t ht => by
      have := h ⟨0, fun _ => 0, fun _ => 0, fun _ => t + 2⟩
        (show 0 < t + 2 - 1 by omega)
      linarith
    have hk := h ⟨0, fun _ => 0, fun _ => 0, fun _ => 2⟩ (by norm_num)
    exact ⟨⟨⟨hp, hm⟩, by omega⟩, hr, by linarith⟩

/-! ## The solver -/

/-- By the sign of the difference. -/
def compare (wide : Bool) (a b : BlockForm) : TryCompareResult :=
  if (a.subtract b).nonpos wide then .YES
  else if ((b.subtract a).add ⟨0, 0, 0, 0, 1⟩).nonpos wide then .NO
  else .UNKNOWN

theorem compare_eq_yes {wide : Bool} {a b : BlockForm} :
    compare wide a b = .YES ↔ (a.subtract b).nonpos wide = true := by
  unfold compare
  constructor
  · intro h
    by_contra hn
    rw [if_neg hn] at h
    split at h <;> cases h
  · intro h
    rw [if_pos h]

/-- The facts of a block tell that it has two iterations. -/
def solver : Maxima formulas where
  is := fun facts a op b =>
    match op with
    | .le => compare (facts = formulas.iterBegin.zip formulas.iterEndInclusive) a b
    | .ge => compare (facts = formulas.iterBegin.zip formulas.iterEndInclusive) b a
  exact := by
    intro a op b
    have hwide : ∀ s : State ℤ, (∀ j, j < formulas.dimensions →
        s.iterBegin j < s.iterEnd j - 1) ↔ s.iterBegin 0 < s.iterEnd 0 - 1 := by
      intro s
      constructor
      · intro h
        exact h 0 Nat.one_pos
      · intro h j hj
        rw [Nat.lt_one_iff.mp hj]
        exact h
    have hless : ∀ f g : BlockForm, compare true f g = .YES ↔
        ∀ s : State ℤ, (∀ j, j < formulas.dimensions → s.iterBegin j < s.iterEnd j - 1) →
          f.eval s ≤ g.eval s := by
      intro f g
      rw [compare_eq_yes, nonpos_iff]
      refine forall_congr' fun s => ?_
      rw [hwide, eval_subtract, sub_nonpos]
    have hfacts : decide (formulas.iterBegin.zip formulas.iterEndInclusive
        = formulas.iterBegin.zip formulas.iterEndInclusive) = true := decide_eq_true rfl
    cases op with
    | le =>
        show compare (decide _) a b = .YES ↔ _
        rw [hfacts]
        exact hless a b
    | ge =>
        show compare (decide _) b a = .YES ↔ _
        rw [hfacts]
        exact hless b a

theorem nonpos_const {wide : Bool} {f : BlockForm}
    (h : f.offset = 0 ∧ f.iterBegin = 0 ∧ f.iterEnd = 0 ∧ f.size = 0) :
    f.nonpos wide = true ↔ f.const ≤ 0 := by
  obtain ⟨hi, hb, he, hn⟩ := h
  cases wide with
  | true => simp [nonpos, hi, hb, he, hn]
  | false => simp [nonpos, hi, hb, he, hn]

/-- In any context, the solver knows which of two forms with the same coefficients is less. -/
theorem choose_holds (facts : List (BlockForm × BlockForm)) (op : Op) {f g : BlockForm}
    (h : (f.subtract g).offset = 0 ∧ (f.subtract g).iterBegin = 0 ∧
      (f.subtract g).iterEnd = 0 ∧ (f.subtract g).size = 0) (s : State ℤ) :
    op.Holds (eval (solver.choose facts op f g) s) (f.eval s) ∧
      op.Holds (eval (solver.choose facts op f g) s) (g.eval s) := by
  have hsub : f.eval s - g.eval s = f.const - g.const := by
    rw [← eval_subtract, eval, h.1, h.2.1, h.2.2.1, h.2.2.2]
    simp only [zero_mul, zero_add]
    rfl
  have hswap : (g.subtract f).offset = 0 ∧ (g.subtract f).iterBegin = 0 ∧
      (g.subtract f).iterEnd = 0 ∧ (g.subtract f).size = 0 := by
    simp only [subtract] at h ⊢
    omega
  have hfg : (f.subtract g).const = f.const - g.const := rfl
  have hgf : (g.subtract f).const = g.const - f.const := rfl
  by_cases heq : f = g
  · subst heq
    rw [Maxima.choose, ite_self]
    cases op with
    | le => exact ⟨le_refl (f.eval s), le_refl (f.eval s)⟩
    | ge => exact ⟨le_refl (f.eval s), le_refl (f.eval s)⟩
  · rw [Maxima.choose, Maxima.tryCompare, if_neg heq]
    cases op with
    | le =>
        simp only [solver, Op.Holds, compare_eq_yes, nonpos_const h]
        split_ifs with hcmp <;> omega
    | ge =>
        simp only [solver, Op.Holds, compare_eq_yes, nonpos_const hswap]
        split_ifs with hcmp <;> omega

end BlockForm

end PbIterationBounds
