import PetaBricks.ApplicableRegionModel
import Mathlib.Tactic.Ring
import Mathlib.Tactic.Linarith
import Mathlib.Tactic.NormNum

/-! # A small computer algebra system

    Sums of multiples of one offset variable, two sizes and one, with rational coefficients.  It
    decides comparisons of forms that differ by a number. -/

namespace PbApplicableRegion

open PbMaxima (TryCompareResult)
open PbDataDependency (SimpleRegion Cell)

/-- `x * x₀ + n * n₀ + m * m₀ + k`, or infinity. -/
inductive Form
  | lin (x n m k : ℚ)
  | inf
  deriving DecidableEq

namespace Form

def eval : Form → (ℤ × ℤ) × Cell → WithTop ℚ
  | lin x n m k, s => ((x * s.2 0 + n * s.1.1 + m * s.1.2 + k : ℚ) : WithTop ℚ)
  | inf, _ => ⊤

def freeVars : Form → Finset FreeVar
  | lin x n m _ =>
      (if x = 0 then ∅ else {.offset 0}) ∪ (if n = 0 then ∅ else {.constant 0})
        ∪ (if m = 0 then ∅ else {.constant 1})
  | inf => {.other 0}

def add : Form → Form → Form
  | lin x n m k, lin x' n' m' k' => lin (x + x') (n + n') (m + m') (k + k')
  | _, _ => inf

def subtract : Form → Form → Form
  | lin x n m k, lin x' n' m' k' => lin (x - x') (n - n') (m - m') (k - k')
  | _, _ => inf

/-- By a number. -/
def divide : Form → Form → Form
  | lin x n m k, lin _ _ _ k' => lin (x / k') (n / k') (m / k') (k / k')
  | _, _ => inf

/-- A common denominator. -/
def denom : Form → ℕ
  | lin x n m k => x.den * n.den * m.den * k.den
  | inf => 1

def staticCeiling : Form → Form
  | lin x n m k => lin x n m (k + ((lin x n m k).denom - 1) / (lin x n m k).denom)
  | inf => inf

def diff : Form → Nat → Form
  | lin x _ _ _, 0 => lin 0 0 0 x
  | _, _ => lin 0 0 0 0

/-- One equation, for the offset variable. -/
def solve : List (Form × Form) → Nat → List Form
  | [(lin x n m k, lin x' n' m' k')], 0 =>
      if x' = x then []
      else [lin 0 ((n - n') / (x' - x)) ((m - m') / (x' - x)) ((k - k') / (x' - x))]
  | _, _ => []

def test : Op → ℚ → ℚ → Bool
  | .le, k, k' => k ≤ k'
  | .ge, k, k' => k' ≤ k
  | .lt, k, k' => k < k'
  | .gt, k, k' => k' < k

/-- A comparison is decided if the difference is a number; everything is below infinity. -/
def is : Form → Op → Form → TryCompareResult
  | lin x n m k, op, lin x' n' m' k' =>
      if x = x' ∧ n = n' ∧ m = m' then if test op k k' then .YES else .NO else .UNKNOWN
  | lin _ _ _ _, op, inf => if op = .le ∨ op = .lt then .YES else .UNKNOWN
  | inf, _, _ => .UNKNOWN

/-! ## Its laws -/

theorem eval_denom (f : Form) (s : (ℤ × ℤ) × Cell) (p : ℚ) (hp : f.eval s = p) :
    ∃ N : ℤ, p * f.denom = N := by
  cases f with
  | inf => cases hp
  | lin x n m k =>
      rw [← WithTop.coe_inj.mp hp]
      refine ⟨x.num * s.2 0 * (n.den * m.den * k.den) + n.num * s.1.1 * (x.den * m.den * k.den)
        + m.num * s.1.2 * (x.den * n.den * k.den) + k.num * (x.den * n.den * m.den), ?_⟩
      have hx := Rat.mul_den_eq_num x
      have hn := Rat.mul_den_eq_num n
      have hm := Rat.mul_den_eq_num m
      have hk := Rat.mul_den_eq_num k
      push_cast [denom]
      rw [← hx, ← hn, ← hm, ← hk]
      ring

theorem denom_pos (f : Form) : 0 < f.denom := by
  cases f with
  | inf => exact Nat.one_pos
  | lin x n m k =>
      exact Nat.mul_pos (Nat.mul_pos (Nat.mul_pos x.den_pos n.den_pos) m.den_pos) k.den_pos

theorem eval_staticCeiling (f : Form) (s : (ℤ × ℤ) × Cell) (p : ℚ) (hp : f.eval s = p) :
    (staticCeiling f).eval s = (p + (f.denom - 1) / f.denom : ℚ) := by
  cases f with
  | inf => cases hp
  | lin x n m k =>
      rw [← WithTop.coe_inj.mp hp]
      exact WithTop.coe_inj.mpr (add_assoc _ _ _).symm

/-- The coefficients of an affine function. -/
theorem coefficients {x n m k : ℚ} {v : Nat} {a : ℤ} {b : ℤ × ℤ → ℤ}
    (h : ∀ s, (lin x n m k).eval s = (line v a b s : ℚ)) :
    (∀ z : ℤ × ℤ, n * z.1 + m * z.2 + k = b z) ∧ if v = 0 then x = a else a = 0 := by
  have hq : ∀ (z : ℤ × ℤ) (c : Cell),
      x * c 0 + n * z.1 + m * z.2 + k = a * c v + b z := by
    intro z c
    have heval := WithTop.coe_inj.mp (h (z, c))
    rw [line] at heval
    push_cast at heval
    exact heval
  have hrest : ∀ z : ℤ × ℤ, n * z.1 + m * z.2 + k = b z := by
    intro z
    have heval := hq z fun _ => 0
    push_cast at heval
    linarith
  refine ⟨hrest, ?_⟩
  -- moving along the offset variable tells its coefficient
  have hone := hq (0, 0) fun d => if d = v then 1 else 0
  have hzero := hrest (0, 0)
  by_cases hv : v = 0
  · subst hv
    rw [if_pos rfl] at hone
    rw [if_pos rfl]
    push_cast at hone hzero
    linarith
  · rw [if_pos rfl, if_neg (Ne.symm hv)] at hone
    rw [if_neg hv]
    push_cast at hone hzero
    exact_mod_cast (by linarith : (a : ℚ) = 0)

theorem eval_diff (f : Form) (v : Nat) (a : ℤ) (b : ℤ × ℤ → ℤ)
    (h : ∀ s, f.eval s = (line v a b s : ℚ)) (s : (ℤ × ℤ) × Cell) :
    (diff f v).eval s = (a : ℚ) := by
  cases f with
  | inf => cases h ((0, 0), fun _ => 0)
  | lin x n m k =>
      obtain ⟨-, hslope⟩ := coefficients h
      cases v with
      | zero =>
          rw [if_pos rfl] at hslope
          show ((0 * _ + 0 * _ + 0 * _ + x : ℚ) : WithTop ℚ) = _
          rw [hslope, zero_mul, zero_mul, zero_mul, zero_add, zero_add, zero_add]
      | succ v =>
          rw [if_neg (Nat.succ_ne_zero v)] at hslope
          show ((0 * _ + 0 * _ + 0 * _ + 0 : ℚ) : WithTop ℚ) = _
          rw [hslope, zero_mul, zero_mul, zero_mul, zero_add, zero_add, zero_add, Int.cast_zero]

theorem solve_line (l f : Form) (v : Nat) (a : ℤ) (b c : ℤ × ℤ → ℤ)
    (hl : ∀ s, l.eval s = (c s.1 : ℚ)) (hf : ∀ s, f.eval s = (line v a b s : ℚ)) (ha : a ≠ 0) :
    ∃ r, solve [(l, f)] v = [r] ∧ ∀ s, r.eval s = ((c s.1 - b s.1) / a : ℚ) := by
  cases l with
  | inf => cases hl ((0, 0), fun _ => 0)
  | lin x n m k =>
      cases f with
      | inf => cases hf ((0, 0), fun _ => 0)
      | lin x' n' m' k' =>
          have hconst : ∀ s, (lin x n m k).eval s = (line 0 0 c s : ℚ) := by
            intro s
            rw [hl, line, zero_mul, zero_add]
          obtain ⟨hrest, hslope⟩ := coefficients hconst
          obtain ⟨hrest', hslope'⟩ := coefficients hf
          rw [if_pos rfl, Int.cast_zero] at hslope
          cases v with
          | succ v =>
              rw [if_neg (Nat.succ_ne_zero v)] at hslope'
              exact absurd hslope' ha
          | zero =>
              rw [if_pos rfl] at hslope'
              -- only the right-hand side mentions the variable
              have hne : x' ≠ x := by
                rw [hslope, hslope']
                exact Int.cast_ne_zero.mpr ha
              refine ⟨_, if_neg hne, fun s => WithTop.coe_inj.mpr ?_⟩
              rw [← hrest, ← hrest', hslope, hslope', sub_zero]
              ring

theorem test_iff (op : Op) (t k k' : ℚ) :
    test op k k' = true ↔ op.Holds (t + k : ℚ) (t + k' : ℚ) := by
  cases op <;> simp only [test, Op.Holds, decide_eq_true_eq, WithTop.coe_le_coe,
    WithTop.coe_lt_coe, add_le_add_iff_left, add_lt_add_iff_left]

/-- What is answered is so. -/
theorem is_sound (a : Form) (op : Op) (b : Form) (s : (ℤ × ℤ) × Cell) :
    (is a op b = .YES → op.Holds (a.eval s) (b.eval s))
      ∧ (is a op b = .NO → ¬ op.Holds (a.eval s) (b.eval s)) := by
  cases a with
  | inf => exact ⟨TryCompareResult.noConfusion, TryCompareResult.noConfusion⟩
  | lin x n m k =>
      cases b with
      | inf =>
          cases op with
          | le => exact ⟨fun _ => le_top, TryCompareResult.noConfusion⟩
          | lt => exact ⟨fun _ => WithTop.coe_lt_top _, TryCompareResult.noConfusion⟩
          | ge => exact ⟨TryCompareResult.noConfusion, TryCompareResult.noConfusion⟩
          | gt => exact ⟨TryCompareResult.noConfusion, TryCompareResult.noConfusion⟩
      | lin x' n' m' k' =>
          show ((if x = x' ∧ n = n' ∧ m = m' then if test op k k' then TryCompareResult.YES
            else .NO else .UNKNOWN) = .YES → _) ∧ ((if x = x' ∧ n = n' ∧ m = m' then
              if test op k k' then TryCompareResult.YES else .NO else .UNKNOWN) = .NO → _)
          by_cases heq : x = x' ∧ n = n' ∧ m = m'
          · obtain ⟨rfl, rfl, rfl⟩ := heq
            rw [if_pos ⟨rfl, rfl, rfl⟩]
            have hiff := test_iff op (x * s.2 0 + n * s.1.1 + m * s.1.2) k k'
            by_cases ht : test op k k' = true
            · rw [if_pos ht]
              exact ⟨fun _ => hiff.mp ht, TryCompareResult.noConfusion⟩
            · rw [if_neg ht]
              exact ⟨TryCompareResult.noConfusion, fun _ h => ht (hiff.mpr h)⟩
          · rw [if_neg heq]
            exact ⟨TryCompareResult.noConfusion, TryCompareResult.noConfusion⟩

/-- A number is known to be negative or not. -/
theorem is_number (f : Form) (q : ℚ) (h : ∀ s, f.eval s = q) :
    is f .lt (lin 0 0 0 0) = .YES ↔ q < 0 := by
  cases f with
  | inf => cases h ((0, 0), fun _ => 0)
  | lin x n m k =>
      have hq : ∀ (z : ℤ × ℤ) (c : Cell), x * c 0 + n * z.1 + m * z.2 + k = q :=
        fun z c => WithTop.coe_inj.mp (h (z, c))
      -- a constant function has no coefficients
      have hk := hq (0, 0) fun _ => 0
      have hx := hq (0, 0) fun _ => 1
      have hn := hq (1, 0) fun _ => 0
      have hm := hq (0, 1) fun _ => 0
      push_cast at hk hx hn hm
      have hzero : x = 0 ∧ n = 0 ∧ m = 0 := ⟨by linarith, by linarith, by linarith⟩
      rw [is, if_pos hzero, show q = k by linarith]
      by_cases hneg : k < 0
      · exact iff_of_true (if_pos (decide_eq_true hneg)) hneg
      · have hno : ¬ test .lt k 0 = true := fun h => hneg (of_decide_eq_true h)
        rw [if_neg hno]
        exact iff_of_false TryCompareResult.noConfusion hneg

def formulas : Formulas Form (ℤ × ℤ) where
  eval := eval
  freeVars := freeVars
  integer n := lin 0 0 0 n
  inf := inf
  add := add
  subtract := subtract
  divide := divide
  normalize f := f
  staticCeiling := staticCeiling
  diff := diff
  solve := solve
  freeVars_integer _ := rfl
  eval_integer n s := by
    simp [eval]
  eval_inf _ := rfl
  eval_add f g s := by
    cases f with
    | inf => exact (WithTop.top_add _).symm
    | lin x n m k =>
        cases g with
        | inf => exact (WithTop.add_top _).symm
        | lin x' n' m' k' =>
            refine WithTop.coe_inj.mpr ?_
            ring
  eval_subtract f g s p q hp hq := by
    cases f with
    | inf => cases hp
    | lin x n m k =>
        cases g with
        | inf => cases hq
        | lin x' n' m' k' =>
            rw [← WithTop.coe_inj.mp hp, ← WithTop.coe_inj.mp hq]
            refine WithTop.coe_inj.mpr ?_
            ring
  eval_divide f g s p q hp hq hne := by
    cases f with
    | inf => cases hp
    | lin x n m k =>
        cases g with
        | inf => cases hq s
        | lin x' n' m' k' =>
            have hk : k' = q := by
              have hzero := WithTop.coe_inj.mp (hq ((0, 0), fun _ => 0))
              push_cast at hzero
              linarith
            rw [← WithTop.coe_inj.mp hp, ← hk]
            refine WithTop.coe_inj.mpr ?_
            ring
  eval_normalize _ _ := rfl
  eval_staticCeiling f := ⟨f.denom, f.denom_pos, fun s p hp =>
    ⟨eval_denom f s p hp, eval_staticCeiling f s p hp⟩⟩
  eval_diff := eval_diff
  solve_line := solve_line

/-- The system of these forms, without assumptions. -/
def maxima : Maxima formulas where
  Assumed _ := True
  is := is
  yes a op b h s _ := (is_sound a op b s).1 h
  no a op b h s _ := (is_sound a op b s).2 h
  number := is_number

end Form

end PbApplicableRegion
