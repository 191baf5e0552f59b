import PetaBricks.RegionDependencyModel

/-! # A small computer algebra system

    Sums and differences of constants, sizes and offset variables.  It decides a comparison if the
    difference is a number, keeping at most one offset variable on the way, and does not know
    otherwise. -/

namespace PbRegionDependency

open PbMaxima PbDataDependency

/-- Sums of constants, sizes and offset variables. -/
inductive Expr
  | const (n : Int)
  | size (n : Nat)
  | offset (d : Nat)
  | add (a b : Expr)
  | sub (a b : Expr)
  deriving DecidableEq

namespace Expr

def eval : Expr → (Nat → Int) × Cell → Int
  | const n, _ => n
  | size n, s => s.1 n
  | offset d, s => s.2 d
  | add a b, s => a.eval s + b.eval s
  | sub a b, s => a.eval s - b.eval s

def freeVars : Expr → Finset FreeVar
  | offset d => {.offset d}
  | add a b => a.freeVars ∪ b.freeVars
  | sub a b => a.freeVars ∪ b.freeVars
  | _ => ∅

def subst (d : Nat) (g : Expr) : Expr → Expr
  | offset d' => if d' = d then g else offset d'
  | add a b => add (subst d g a) (subst d g b)
  | sub a b => sub (subst d g a) (subst d g b)
  | e => e

/-- The derivative by an offset variable. -/
def slope (d : Nat) : Expr → Int
  | offset d' => if d' = d then 1 else 0
  | add a b => a.slope d + b.slope d
  | sub a b => a.slope d - b.slope d
  | _ => 0

/-- At most one offset variable and a constant, where that is what is left. -/
def form : Expr → Option (Option Nat × Int)
  | const n => some (none, n)
  | size _ => none
  | offset d => some (some d, 0)
  | add a b => do
      let (v, k) ← a.form
      let (w, l) ← b.form
      if v = none then pure (w, k + l) else if w = none then pure (v, k + l) else none
  | sub a b => do
      let (v, k) ← a.form
      let (w, l) ← b.form
      if w = none then pure (v, k - l) else if v = w then pure (none, k - l) else none

def test : Op → Int → Bool
  | .le, k => k ≤ 0
  | .ge, k => 0 ≤ k
  | .lt, k => k < 0
  | .eq, k => k = 0

/-- A comparison is decided if the difference is a number. -/
def is (a : Expr) (op : Op) (b : Expr) : TryCompareResult :=
  match (sub a b).form with
  | some (none, k) => if test op k then .YES else .NO
  | _ => .UNKNOWN

theorem eval_form {e : Expr} {v : Option Nat} {k : Int} (h : e.form = some (v, k))
    (s : (Nat → Int) × Cell) : e.eval s = v.elim 0 s.2 + k := by
  induction e generalizing v k with
  | const n =>
      cases h
      exact (zero_add _).symm
  | size n => cases h
  | offset d =>
      cases h
      exact (add_zero _).symm
  | add a b iha ihb =>
      obtain ⟨⟨v, k⟩, ha, h⟩ := Option.bind_eq_some_iff.mp h
      obtain ⟨⟨w, l⟩, hb, h⟩ := Option.bind_eq_some_iff.mp h
      show a.eval s + b.eval s = _
      rw [iha ha, ihb hb]
      -- at most one of the two has an offset variable
      cases v with
      | none =>
          cases h
          show 0 + k + _ = _
          omega
      | some v =>
          cases w with
          | none =>
              cases h
              show _ + k + (0 + l) = _
              omega
          | some w => cases h
  | sub a b iha ihb =>
      obtain ⟨⟨v, k⟩, ha, h⟩ := Option.bind_eq_some_iff.mp h
      obtain ⟨⟨w, l⟩, hb, h⟩ := Option.bind_eq_some_iff.mp h
      show a.eval s - b.eval s = _
      rw [iha ha, ihb hb]
      cases w with
      | none =>
          cases h
          show _ + k - (0 + l) = _
          omega
      | some w =>
          have hif : (if v = some w then some ((none : Option Nat), k - l) else none) = some _ := h
          by_cases hvw : v = some w
          · rw [if_pos hvw] at hif
            cases hif
            rw [hvw]
            show _ + k - (_ + l) = 0 + (k - l)
            omega
          · rw [if_neg hvw] at hif
            cases hif

theorem test_iff (op : Op) (a b : Int) : test op (a - b) = true ↔ op.Holds a b := by
  cases op <;> simp only [test, Op.Holds, decide_eq_true_eq] <;> omega

/-- What `is` answers is so. -/
theorem is_sound {a b : Expr} {op : Op} {answer : Bool}
    (h : is a op b = if answer then .YES else .NO) (s : (Nat → Int) × Cell) :
    op.Holds (a.eval s) (b.eval s) ↔ answer = true := by
  rw [is] at h
  cases hf : (sub a b).form with
  | none =>
      rw [hf] at h
      cases answer <;> cases h
  | some f =>
      obtain ⟨v, k⟩ := f
      rw [hf] at h
      cases v with
      -- the difference still mentions a variable, and nothing is answered
      | some v => cases answer <;> cases h
      | none =>
          have hk : a.eval s - b.eval s = 0 + k := eval_form hf s
          rw [zero_add] at hk
          have hif : (if test op k then TryCompareResult.YES else .NO)
              = if answer then .YES else .NO := h
          rw [← test_iff, hk]
          cases answer <;> cases ht : test op k <;> rw [ht] at hif <;> first | rfl | cases hif

theorem eval_subst (d : Nat) (g f : Expr) (z : Nat → Int) (x : Cell) :
    (subst d g f).eval (z, x) = f.eval (z, Function.update x d (g.eval (z, x))) := by
  induction f with
  | const n => rfl
  | size n => rfl
  | offset d' =>
      show (if d' = d then g else offset d').eval (z, x) = Function.update x d _ d'
      by_cases hd : d' = d
      · rw [if_pos hd, hd, Function.update_self]
      · rw [if_neg hd, Function.update_of_ne hd]
        rfl
  | add a b iha ihb =>
      show (subst d g a).eval (z, x) + (subst d g b).eval (z, x) = _
      rw [iha, ihb]
      rfl
  | sub a b iha ihb =>
      show (subst d g a).eval (z, x) - (subst d g b).eval (z, x) = _
      rw [iha, ihb]
      rfl

theorem eval_congr (f : Expr) (z : Nat → Int) (x y : Cell)
    (h : ∀ d, .offset d ∈ f.freeVars → x d = y d) : f.eval (z, x) = f.eval (z, y) := by
  induction f with
  | const n => rfl
  | size n => rfl
  | offset d => exact h d (Finset.mem_singleton_self _)
  | add a b iha ihb =>
      show a.eval (z, x) + b.eval (z, x) = a.eval (z, y) + b.eval (z, y)
      rw [iha fun d hd => h d (Finset.mem_union_left _ hd),
        ihb fun d hd => h d (Finset.mem_union_right _ hd)]
  | sub a b iha ihb =>
      show a.eval (z, x) - b.eval (z, x) = a.eval (z, y) - b.eval (z, y)
      rw [iha fun d hd => h d (Finset.mem_union_left _ hd),
        ihb fun d hd => h d (Finset.mem_union_right _ hd)]

def formulas : Formulas Expr (Nat → Int) where
  eval := eval
  freeVars := freeVars
  integer := const
  getOffsetVar := offset
  subtract := sub
  diff f d := const (f.slope d)
  subst := subst
  eval_integer _ _ := rfl
  eval_getOffsetVar _ _ _ := rfl
  eval_subtract _ _ _ := rfl
  eval_subst := eval_subst
  eval_congr := eval_congr

/-- The system of these expressions, without assumptions. -/
def maxima : Maxima formulas where
  Assumed _ := True
  is := is
  yes _ _ _ h s _ := (@is_sound _ _ _ true h s).mpr rfl
  no _ _ _ h s _ hh := Bool.noConfusion ((@is_sound _ _ _ false h s).mp hh)

end Expr

end PbRegionDependency
