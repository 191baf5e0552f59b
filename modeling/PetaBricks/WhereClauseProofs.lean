import Mathlib.Data.Int.ConditionallyCompleteOrder
import PetaBricks.ApplicableRegionModel

/-! # Where clauses on one variable — `UserRule::initialize`

    A linear comparison in one offset variable is solved for the variable as an equation.  The
    solution, the critical point, becomes a bound of the applicable region, or the point after
    it does, by the sides of it on which the clause can hold.  The larger of two lower bounds
    is the old one only if it is known to be.

    Formulas have rational values at the sizes and at the offset variables.  The computer algebra
    system decides relations of linear formulas, under the facts it has been told.  These say that
    matrices are large; the code runs for small ones too. -/

namespace PbWhereClause

open PbMaxima (TryCompareResult)
open PbApplicableRegion (FreeVar AtLeast Below)
open PbRounding

/-! ## Formulas -/

/-- The constants of a transform, and the offset variables. -/
abbrev Sizes := ℕ → ℤ

abbrev State := Sizes × (ℕ → ℚ)

/-- A linear form in the sizes. -/
structure SizeForm where
  terms : List (ℤ × ℕ)
  const : ℤ

def SizeForm.value (b : SizeForm) (z : Sizes) : ℤ := (b.terms.map fun t => t.1 * z t.2).sum + b.const

/-- Linear in one offset variable, over the sizes. -/
def IsLine (f : State → WithTop ℚ) (d : ℕ) (a : ℤ) (b : SizeForm) : Prop :=
  ∀ s, f s = ((a * s.2 d + b.value s.1 : ℚ) : WithTop ℚ)

/-- A fraction of such a formula. -/
def IsLinear (f : State → WithTop ℚ) : Prop :=
  ∃ (d : ℕ) (a : ℤ) (b : SizeForm) (k : ℤ), k ≠ 0 ∧
    ∀ s, f s = (((a * s.2 d + b.value s.1) / k : ℚ) : WithTop ℚ)

structure Formulas (F : Type) where
  eval : F → State → WithTop ℚ
  freeVars : F → List FreeVar
  offsetVar : ℕ → F
  plusOne : F → F
  /-- What an equation gives for an offset variable. -/
  solve : F → F → ℕ → List F
  eval_offsetVar : ∀ d s, eval (offsetVar d) s = (s.2 d : ℚ)
  eval_plusOne : ∀ f s, eval (plusOne f) s = eval f s + 1
  solve_line : ∀ l r d a a' b b', IsLine (eval l) d a b → IsLine (eval r) d a' b' → a ≠ a' →
    ∃ f, solve l r d = [f] ∧
      ∀ s, eval f s = (((b'.value s.1 - b.value s.1) / (a - a') : ℚ) : WithTop ℚ)

inductive Op
  | lt | le | eq | ge | gt
deriving DecidableEq

def Op.Holds : Op → WithTop ℚ → WithTop ℚ → Prop
  | .lt, p, q => p < q
  | .le, p, q => p ≤ q
  | .eq, p, q => p = q
  | .ge, p, q => q ≤ p
  | .gt, p, q => q < p

/-- The answer for identical texts. -/
def Op.identical : Op → TryCompareResult
  | .le | .eq | .ge => .YES
  | .lt | .gt => .NO

structure Clause (F : Type) where
  left : F
  op : Op
  right : F

variable {F : Type}

def Clause.Holds (A : Formulas F) (c : Clause F) (s : State) : Prop :=
  c.op.Holds (A.eval c.left s) (A.eval c.right s)

def Clause.IsLinear (A : Formulas F) (c : Clause F) : Prop :=
  PbWhereClause.IsLinear (A.eval c.left) ∧ PbWhereClause.IsLinear (A.eval c.right)

/-- The facts of the transform, and the clauses that a context assumes on top of them; sound,
    and complete for linear relations. -/
structure Maxima (A : Formulas F) where
  Assumed : Sizes → Prop
  satisfiable : ∃ z, Assumed z
  is : List (Clause F) → F → Op → F → TryCompareResult
  yes : ∀ Γ f op g, is Γ f op g = .YES →
    ∀ s, Assumed s.1 → (∀ c ∈ Γ, c.Holds A s) → op.Holds (A.eval f s) (A.eval g s)
  no : ∀ Γ f op g, is Γ f op g = .NO →
    ∀ s, Assumed s.1 → (∀ c ∈ Γ, c.Holds A s) → ¬ op.Holds (A.eval f s) (A.eval g s)
  yes_of_linear : ∀ Γ f op g, (∀ c ∈ Γ, c.IsLinear A) → IsLinear (A.eval f) →
    IsLinear (A.eval g) → (∃ s, Assumed s.1 ∧ ∀ c ∈ Γ, c.Holds A s) →
    (∀ s, Assumed s.1 → (∀ c ∈ Γ, c.Holds A s) → op.Holds (A.eval f s) (A.eval g s)) →
    is Γ f op g = .YES
  no_of_linear : ∀ Γ f op g, (∀ c ∈ Γ, c.IsLinear A) → IsLinear (A.eval f) →
    IsLinear (A.eval g) → (∃ s, Assumed s.1 ∧ ∀ c ∈ Γ, c.Holds A s) →
    (∀ s, Assumed s.1 → (∀ c ∈ Γ, c.Holds A s) → ¬ op.Holds (A.eval f s) (A.eval g s)) →
    is Γ f op g = .NO

variable [DecidableEq F] {A : Formulas F} (M : Maxima A)

namespace Maxima

def tryCompare (Γ : List (Clause F)) (f : F) (op : Op) (g : F) : TryCompareResult :=
  if f = g then op.identical else M.is Γ f op g

variable {M} in
theorem holds_of_yes {Γ : List (Clause F)} {f g : F} {op : Op} (h : M.tryCompare Γ f op g = .YES)
    {s : State} (hs : M.Assumed s.1) (hc : ∀ c ∈ Γ, c.Holds A s) :
    op.Holds (A.eval f s) (A.eval g s) := by
  rw [tryCompare] at h
  by_cases heq : f = g
  · subst heq
    rw [if_pos rfl] at h
    cases op with
    | le | ge => exact le_rfl
    | eq => rfl
    | lt | gt => cases h
  · rw [if_neg heq] at h
    exact M.yes Γ f op g h s hs hc

/-- `MaximaWrapper::min`: the second formula, unless the first is known to be no larger. -/
def min (f g : F) : F := if M.tryCompare [] f .le g = .YES then f else g

/-- `MaximaWrapper::max`. -/
def max (f g : F) : F := if M.tryCompare [] f .ge g = .YES then f else g

end Maxima

/-! ## Folding a clause -/

variable (A) in
/-- The free variables of a clause that are not constants of the transform. -/
def clauseVars (c : Clause F) : List FreeVar :=
  (A.freeVars c.left ∪ A.freeVars c.right).filter (! ·.isConstant)

/-- `RuleInterface::trimImpossible`, which asserts that there is one solution. -/
def trimImpossible : List F → Option F
  | [f] => some f
  | _ => none

/-- One round of the loop over the clauses: the bounds of the applicable region and the conditions
    that are left for the running code. -/
def foldWhere (region : List (F × F)) (conditions : List (Clause F)) (c : Clause F) :
    Option (List (F × F) × List (Clause F)) :=
  match clauseVars A c with
  | [.offset d] => do
      let criticalPoint ← trimImpossible (A.solve c.left c.right d)
      let smaller := M.tryCompare [c] (A.offsetVar d) .lt criticalPoint ≠ .NO
      let eq := M.tryCompare [c] (A.offsetVar d) .eq criticalPoint ≠ .NO
      let larger := M.tryCompare [c] (A.offsetVar d) .gt criticalPoint ≠ .NO
      if smaller ∨ eq ∨ larger then
        let (f, g) ← region[d]?
        let f := if smaller then f
          else M.max f (if eq then criticalPoint else A.plusOne criticalPoint)
        let g := if larger then g
          else M.min g (if eq then A.plusOne criticalPoint else criticalPoint)
        return (region.set d (f, g), conditions)
      else none
  -- a variable that is no offset variable
  | [_] => none
  | _ => if M.is [] c.left c.op c.right = .YES then some (region, conditions)
      else some (region, conditions ++ [c])

/-! ## What a clause says about its variable -/

/-- The sides of the critical point on which a relation can hold. -/
def Op.smaller : Op → Bool
  | .lt | .le => true
  | _ => false

def Op.equal : Op → Bool
  | .le | .eq | .ge => true
  | _ => false

def Op.larger : Op → Bool
  | .ge | .gt => true
  | _ => false

/-- The relation read from the right. -/
def Op.flip : Op → Op
  | .lt => .gt
  | .le => .ge
  | .eq => .eq
  | .ge => .le
  | .gt => .lt

/-- The relation of the variable to the critical point, for coefficients `a` and `a'`. -/
def Op.solved (op : Op) (a a' : ℤ) : Op := if a' < a then op else op.flip

theorem Op.holds_coe (op : Op) (p q : ℚ) :
    op.Holds (p : WithTop ℚ) (q : WithTop ℚ) ↔
      (p < q ∧ op.smaller = true) ∨ (p = q ∧ op.equal = true) ∨ (q < p ∧ op.larger = true) := by
  cases op with
  | lt => simp [Op.Holds, Op.smaller, Op.equal, Op.larger]
  | le => simp [Op.Holds, Op.smaller, Op.equal, Op.larger, le_iff_lt_or_eq]
  | eq => simp [Op.Holds, Op.smaller, Op.equal, Op.larger]
  | ge => simp [Op.Holds, Op.smaller, Op.equal, Op.larger, le_iff_lt_or_eq, eq_comm, or_comm]
  | gt => simp [Op.Holds, Op.smaller, Op.equal, Op.larger]

theorem Op.flip_holds (op : Op) (p q : WithTop ℚ) : op.flip.Holds p q ↔ op.Holds q p := by
  cases op with
  | eq => exact eq_comm
  | _ => exact Iff.rfl

/-- A relation is kept by a positive factor. -/
theorem Op.holds_div (op : Op) {k p q : ℚ} (hk : 0 < k) :
    op.Holds ((k * p : ℚ) : WithTop ℚ) (q : WithTop ℚ) ↔
      op.Holds (p : WithTop ℚ) ((q / k : ℚ) : WithTop ℚ) := by
  have hlt : k * p < q ↔ p < q / k := by rw [lt_div_iff₀ hk, mul_comm]
  have heq : k * p = q ↔ p = q / k := by rw [eq_div_iff hk.ne', mul_comm]
  have hgt : q < k * p ↔ q / k < p := by rw [div_lt_iff₀ hk, mul_comm]
  rw [op.holds_coe, op.holds_coe, hlt, heq, hgt]

/-- A difference on both sides. -/
theorem Op.holds_sub (op : Op) {p q p' q' : ℚ} (h : p - q = p' - q') :
    op.Holds (p : WithTop ℚ) (q : WithTop ℚ) ↔ op.Holds (p' : WithTop ℚ) (q' : WithTop ℚ) := by
  have hlt : p < q ↔ p' < q' := by rw [← sub_neg, h, sub_neg]
  have heq : p = q ↔ p' = q' := by rw [← sub_eq_zero, h, sub_eq_zero]
  have hgt : q < p ↔ q' < p' := by rw [← sub_pos, h, sub_pos]
  rw [op.holds_coe, op.holds_coe, hlt, heq, hgt]

section Line

variable {c : Clause F} {d : ℕ} {a a' : ℤ} {b b' : SizeForm}

/-- The critical point at some sizes. -/
def criticalValue (a a' : ℤ) (b b' : SizeForm) (z : Sizes) : ℚ :=
  (b'.value z - b.value z) / (a - a')

omit [DecidableEq F] in
/-- A linear clause compares its variable with the critical point. -/
theorem holds_iff_solved (hl : IsLine (A.eval c.left) d a b) (hr : IsLine (A.eval c.right) d a' b')
    (hne : a ≠ a') (s : State) :
    c.Holds A s ↔ (c.op.solved a a').Holds ((s.2 d : ℚ) : WithTop ℚ)
      ((criticalValue a a' b b' s.1 : ℚ) : WithTop ℚ) := by
  rw [Clause.Holds, hl s, hr s, Op.solved, criticalValue]
  by_cases hlt : a' < a
  · have hk : (0 : ℚ) < a - a' := sub_pos.mpr (Int.cast_lt.mpr hlt)
    rw [if_pos hlt, ← Op.holds_div _ hk]
    exact Op.holds_sub _ (by ring)
  -- the coefficient is on the right
  · have hk : (0 : ℚ) < a' - a :=
      sub_pos.mpr (Int.cast_lt.mpr (lt_of_le_of_ne (not_lt.mp hlt) hne))
    have hflip : (b'.value s.1 - b.value s.1 : ℚ) / (a - a') =
        (b.value s.1 - b'.value s.1) / (a' - a) := by
      rw [← neg_sub (b.value s.1 : ℚ), ← neg_sub (a' : ℚ), neg_div_neg_eq]
    rw [if_neg hlt, hflip, ← Op.flip_holds, ← Op.holds_div _ hk]
    exact Op.holds_sub _ (by ring)

/-- A formula that the equation of the clause gives for the variable. -/
def IsCritical (A : Formulas F) (p : F) (a a' : ℤ) (b b' : SizeForm) : Prop :=
  ∀ s, A.eval p s = ((criticalValue a a' b b' s.1 : ℚ) : WithTop ℚ)

omit [DecidableEq F] in
theorem isCritical_of_solve {p : F} (hl : IsLine (A.eval c.left) d a b)
    (hr : IsLine (A.eval c.right) d a' b') (hne : a ≠ a') (hsolve : A.solve c.left c.right d = [p]) :
    IsCritical A p a a' b b' := by
  obtain ⟨p', hp', heval⟩ := A.solve_line c.left c.right d a a' b b' hl hr hne
  rw [hsolve] at hp'
  obtain rfl := (List.cons.inj hp').1
  exact heval

omit [DecidableEq F] in
theorem IsLine.isLinear {f : State → WithTop ℚ} (h : IsLine f d a b) : IsLinear f := by
  refine ⟨d, a, b, 1, one_ne_zero, fun s => ?_⟩
  rw [h s, Int.cast_one, div_one]

omit [DecidableEq F] in
theorem isLinear_offsetVar (A : Formulas F) (d : ℕ) : IsLinear (A.eval (A.offsetVar d)) := by
  refine IsLine.isLinear (d := d) (a := 1) (b := ⟨[], 0⟩) fun s => ?_
  rw [A.eval_offsetVar]
  simp [SizeForm.value]

/-- The difference of two forms. -/
def SizeForm.sub (b b' : SizeForm) : SizeForm :=
  ⟨b.terms ++ b'.terms.map fun t => (-t.1, t.2), b.const - b'.const⟩

theorem SizeForm.value_sub (b b' : SizeForm) (z : Sizes) :
    (b.sub b').value z = b.value z - b'.value z := by
  have hneg : ∀ l : List (ℤ × ℕ), ((l.map fun t => (-t.1, t.2)).map fun t => t.1 * z t.2).sum
      = -(l.map fun t => t.1 * z t.2).sum := by
    intro l
    induction l with
    | nil => rfl
    | cons t l ih =>
        rw [List.map_cons, List.map_cons, List.sum_cons, ih, List.map_cons, List.sum_cons]
        ring
  rw [SizeForm.value, SizeForm.value, SizeForm.value, SizeForm.sub, List.map_append,
    List.sum_append, hneg]
  ring

omit [DecidableEq F] in
theorem IsCritical.isLinear {p : F} (hp : IsCritical A p a a' b b') (hne : a ≠ a') :
    IsLinear (A.eval p) := by
  refine ⟨0, 0, b'.sub b, a - a', sub_ne_zero.mpr hne, fun s => ?_⟩
  rw [hp s, criticalValue, SizeForm.value_sub]
  push_cast
  rw [zero_mul, zero_add]

omit [DecidableEq F] in
/-- The critical point depends on the sizes only. -/
theorem IsCritical.ne_offsetVar {p : F} (hp : IsCritical A p a a' b b') (d : ℕ) :
    A.offsetVar d ≠ p := by
  intro heq
  have h := hp (fun _ => 0, fun _ => criticalValue a a' b b' (fun _ => 0) + 1)
  rw [← heq, A.eval_offsetVar] at h
  have h := WithTop.coe_injective h
  simp at h

/-- **THE SIDES**: a relation of the variable to the critical point is taken for possible exactly
    if the clause allows it. -/
theorem tryCompare_ne_no_iff (hl : IsLine (A.eval c.left) d a b)
    (hr : IsLine (A.eval c.right) d a' b') (hne : a ≠ a') {p : F}
    (hp : IsCritical A p a a' b b') (op : Op) :
    M.tryCompare [c] (A.offsetVar d) op p ≠ .NO ↔
      ∃ x : ℚ, (c.op.solved a a').Holds (x : WithTop ℚ) ((0 : ℚ) : WithTop ℚ) ∧
        op.Holds (x : WithTop ℚ) ((0 : ℚ) : WithTop ℚ) := by
  have hshift : ∀ (op : Op) (x q : ℚ), op.Holds ((q + x : ℚ) : WithTop ℚ) (q : WithTop ℚ) ↔
      op.Holds (x : WithTop ℚ) ((0 : ℚ) : WithTop ℚ) :=
    fun op x q => Op.holds_sub op (by ring)
  -- a point of the variable at the sizes `z`, by its distance from the critical point
  have hat : ∀ (z : Sizes) (x : ℚ) (op' : Op),
      op'.Holds (A.eval (A.offsetVar d) (z, fun _ => criticalValue a a' b b' z + x))
        (A.eval p (z, fun _ => criticalValue a a' b b' z + x)) ↔
      op'.Holds (x : WithTop ℚ) ((0 : ℚ) : WithTop ℚ) := by
    intro z x op'
    rw [A.eval_offsetVar, hp]
    exact hshift op' x _
  have hclause : ∀ (z : Sizes) (x : ℚ),
      c.Holds A (z, fun _ => criticalValue a a' b b' z + x) ↔
      (c.op.solved a a').Holds (x : WithTop ℚ) ((0 : ℚ) : WithTop ℚ) := by
    intro z x
    rw [holds_iff_solved hl hr hne]
    exact hshift _ x _
  constructor
  · intro hno
    by_contra hnone
    obtain ⟨z, hz⟩ := M.satisfiable
    obtain ⟨x, hx⟩ : ∃ x : ℚ, (c.op.solved a a').Holds (x : WithTop ℚ) ((0 : ℚ) : WithTop ℚ) := by
      have hsides : ∀ op : Op, op.smaller = true ∨ op.equal = true ∨ op.larger = true := by
        intro op
        cases op <;> decide
      rcases hsides (c.op.solved a a') with h | h | h
      · exact ⟨-1, (Op.holds_coe _ _ _).mpr (.inl ⟨by norm_num, h⟩)⟩
      · exact ⟨0, (Op.holds_coe _ _ _).mpr (.inr (.inl ⟨rfl, h⟩))⟩
      · exact ⟨1, (Op.holds_coe _ _ _).mpr (.inr (.inr ⟨by norm_num, h⟩))⟩
    have hnever : ∀ s : State, M.Assumed s.1 → (∀ c' ∈ [c], c'.Holds A s) →
        ¬ op.Holds (A.eval (A.offsetVar d) s) (A.eval p s) := by
      intro s _ hc hop
      have hc := (holds_iff_solved hl hr hne s).mp (hc c List.mem_cons_self)
      rw [A.eval_offsetVar, hp] at hop
      refine hnone ⟨s.2 d - criticalValue a a' b b' s.1, ?_, ?_⟩
      · exact (Op.holds_sub _ (by ring)).mp hc
      · exact (Op.holds_sub _ (by ring)).mp hop
    have hpoint : ∃ s : State, M.Assumed s.1 ∧ ∀ c' ∈ [c], c'.Holds A s :=
      ⟨(z, fun _ => criticalValue a a' b b' z + x), hz, fun c' hc' => by
        obtain rfl := List.mem_singleton.mp hc'
        exact (hclause z x).mpr hx⟩
    refine hno ?_
    rw [Maxima.tryCompare, if_neg (hp.ne_offsetVar d)]
    refine M.no_of_linear _ _ _ _ ?_ (isLinear_offsetVar A d) (hp.isLinear hne) hpoint hnever
    intro c' hc'
    obtain rfl := List.mem_singleton.mp hc'
    exact ⟨hl.isLinear, hr.isLinear⟩
  · rintro ⟨x, hx, hop⟩ hno
    obtain ⟨z, hz⟩ := M.satisfiable
    rw [Maxima.tryCompare, if_neg (hp.ne_offsetVar d)] at hno
    refine M.no _ _ _ _ hno (z, fun _ => criticalValue a a' b b' z + x) hz ?_ ((hat z x op).mpr hop)
    intro c' hc'
    obtain rfl := List.mem_singleton.mp hc'
    exact (hclause z x).mpr hx

end Line

/-! ## The bounds -/

/-- The point that becomes the lower bound. -/
def Op.lowerPoint (op : Op) (q : ℚ) : ℚ := if op.equal then q else q + 1

/-- The point that becomes the upper bound. -/
def Op.upperPoint (op : Op) (q : ℚ) : ℚ := if op.equal then q + 1 else q

/-- The first integer from the critical point on for which a relation holds. -/
def Op.least (op : Op) (q : ℚ) : ℤ := if op.equal then ⌈q⌉ else ⌊q⌋ + 1

/-- The integer after the last one. -/
def Op.bound (op : Op) (q : ℚ) : ℤ := if op.equal then ⌊q⌋ + 1 else ⌈q⌉

/-- The integers for which a relation holds. -/
theorem Op.holds_int_iff (op : Op) (x : ℤ) (q : ℚ) :
    op.Holds ((x : ℚ) : WithTop ℚ) (q : WithTop ℚ) ↔
      (op.smaller = true ∨ op.least q ≤ x) ∧ (op.larger = true ∨ x < op.bound q) := by
  cases op with
  | lt => simp [Op.Holds, Op.smaller, Op.larger, Op.bound, Op.equal, Int.lt_ceil]
  | le =>
      simp [Op.Holds, Op.smaller, Op.larger, Op.bound, Op.equal, Int.lt_add_one_iff, Int.le_floor]
  | eq =>
      simp only [Op.Holds, Op.smaller, Op.larger, Op.bound, Op.least, Op.equal, if_true,
        Bool.false_eq_true, false_or, Int.lt_add_one_iff, Int.le_floor, Int.ceil_le,
        WithTop.coe_inj]
      exact ⟨fun h => ⟨h.ge, h.le⟩, fun h => le_antisymm h.2 h.1⟩
  | ge => simp [Op.Holds, Op.smaller, Op.larger, Op.least, Op.equal, Int.ceil_le]
  | gt =>
      simp [Op.Holds, Op.smaller, Op.larger, Op.least, Op.equal, Int.add_one_le_iff, Int.floor_lt]

/-- Integers that are as large as a lower bound and below an upper bound. -/
theorem interval_eq_iff {a b c d : WithTop ℤ} :
    (∀ x : ℤ, (a ≤ x ∧ (x : WithTop ℤ) < b) ↔ (c ≤ x ∧ (x : WithTop ℤ) < d)) ↔
      (a = c ∧ b = d) ∨ (b ≤ a ∧ d ≤ c) := by
  have hsub : ∀ {a b c d : WithTop ℤ},
      (∀ x : ℤ, (a ≤ x ∧ (x : WithTop ℤ) < b) → (c ≤ x ∧ (x : WithTop ℤ) < d)) →
      a < b → c ≤ a ∧ b ≤ d := by
    intro a b c d h hab
    obtain ⟨i, rfl⟩ := WithTop.ne_top_iff_exists.mp hab.ne_top
    refine ⟨(h i ⟨le_rfl, hab⟩).1, ?_⟩
    by_contra hdb
    obtain ⟨j, rfl⟩ := WithTop.ne_top_iff_exists.mp (not_le.mp hdb).ne_top
    by_cases hij : (i : WithTop ℤ) ≤ j
    · exact absurd (h j ⟨hij, not_le.mp hdb⟩).2 (lt_irrefl _)
    · exact absurd ((h i ⟨le_rfl, hab⟩).2.trans (not_le.mp hij)) (lt_irrefl _)
  constructor
  · intro h
    by_cases hab : a < b
    · obtain ⟨hca, hbd⟩ := hsub (fun x => (h x).mp) hab
      obtain ⟨hac, hdb⟩ := hsub (fun x => (h x).mpr) (hca.trans_lt (hab.trans_le hbd))
      exact .inl ⟨le_antisymm hac hca, le_antisymm hbd hdb⟩
    · by_cases hcd : c < d
      · obtain ⟨hac, hdb⟩ := hsub (fun x => (h x).mpr) hcd
        exact absurd (hac.trans_lt (hcd.trans_le hdb)) hab
      · exact .inr ⟨not_lt.mp hab, not_lt.mp hcd⟩
  · rintro (⟨rfl, rfl⟩ | ⟨hba, hdc⟩) x
    · exact Iff.rfl
    · exact iff_of_false (fun h => absurd (h.1.trans_lt h.2) (not_lt.mpr hba))
        (fun h => absurd (h.1.trans_lt h.2) (not_lt.mpr hdc))

/-- A bound, as the generated code evaluates it. -/
def code (v : WithTop ℚ) : WithTop ℤ := v.map truncate

@[simp] theorem code_coe (q : ℚ) : code (q : WithTop ℚ) = (truncate q : WithTop ℤ) := rfl

theorem atLeast_iff (v : WithTop ℚ) (x : ℤ) : AtLeast v x ↔ code v ≤ x := by
  cases v with
  | top => exact iff_of_false (fun ⟨_, h, _⟩ => nomatch h) (WithTop.not_top_le_coe x)
  | coe q =>
      rw [code_coe, WithTop.coe_le_coe]
      exact ⟨fun ⟨p, h, hp⟩ => WithTop.coe_injective h ▸ hp, fun h => ⟨q, rfl, h⟩⟩

theorem below_iff (v : WithTop ℚ) (x : ℤ) : Below v x ↔ (x : WithTop ℤ) < code v := by
  cases v with
  | top => exact iff_of_true (fun _ h => nomatch h) (WithTop.coe_lt_top x)
  | coe q =>
      rw [code_coe, WithTop.coe_lt_coe]
      exact ⟨fun h => h q rfl, fun h p hp => WithTop.coe_injective hp ▸ h⟩

/-- Truncation rounds up, but for positive fractions. -/
theorem truncate_eq_ceil_iff (q : ℚ) : truncate q = ⌈q⌉ ↔ q ≤ 0 ∨ ∃ n : ℤ, q = n := by
  rw [truncate]
  constructor
  · intro h
    split at h
    · refine .inr ⟨⌊q⌋, le_antisymm ?_ (Int.floor_le q)⟩
      rw [h]
      exact Int.le_ceil q
    · rename_i hq
      exact .inl (not_le.mp hq).le
  · rintro (hq | ⟨n, rfl⟩)
    · split
      · rename_i hq'
        rw [le_antisymm hq hq', Int.floor_zero, Int.ceil_zero]
      · rfl
    · rw [Int.floor_intCast, Int.ceil_intCast, ite_self]

/-- The point after another one is rounded down, but for fractions below minus one. -/
theorem truncate_add_one_eq_iff (q : ℚ) :
    truncate (q + 1) = ⌊q⌋ + 1 ↔ -1 ≤ q ∨ ∃ n : ℤ, q = n := by
  rw [truncate, Int.floor_add_one, Int.ceil_add_one]
  constructor
  · intro h
    split at h
    · rename_i hq
      exact .inl (by linarith)
    · have hceil : ⌈q⌉ = ⌊q⌋ := add_right_cancel h
      refine .inr ⟨⌊q⌋, le_antisymm ?_ (Int.floor_le q)⟩
      rw [← hceil]
      exact Int.le_ceil q
  · rintro (hq | ⟨n, rfl⟩)
    · rw [if_pos (by linarith)]
    · rw [Int.floor_intCast, Int.ceil_intCast, ite_self]

/-- **THE POINT AS A LOWER BOUND** is truncated to the first integer that satisfies the clause, but
    for fractions on the wrong side of zero, or of minus one. -/
theorem Op.truncate_lowerPoint_iff (op : Op) (q : ℚ) :
    truncate (op.lowerPoint q) = op.least q ↔
      (if op.equal then q ≤ 0 else -1 ≤ q) ∨ ∃ n : ℤ, q = n := by
  rw [Op.lowerPoint, Op.least]
  cases op.equal with
  | true => exact truncate_eq_ceil_iff q
  | false => exact truncate_add_one_eq_iff q

/-- And as an upper bound. -/
theorem Op.truncate_upperPoint_iff (op : Op) (q : ℚ) :
    truncate (op.upperPoint q) = op.bound q ↔
      (if op.equal then -1 ≤ q else q ≤ 0) ∨ ∃ n : ℤ, q = n := by
  rw [Op.upperPoint, Op.bound]
  cases op.equal with
  | true => exact truncate_add_one_eq_iff q
  | false => exact truncate_eq_ceil_iff q

/-! ## Regions -/

variable (A) in
/-- A bound that mentions no offset variable. -/
def Sized (f : F) : Prop := ∀ z y y', A.eval f (z, y) = A.eval f (z, y')

variable (A) in
/-- An applicable region: its bounds are formulas of the sizes. -/
structure Region where
  coords : List (F × F)
  sized : ∀ p ∈ coords, Sized A p.1 ∧ Sized A p.2

variable (A) in
/-- The bounds of a dimension, at some sizes. -/
def ends (p : F × F) (z : Sizes) : WithTop ℤ × WithTop ℤ :=
  (code (A.eval p.1 (z, 0)), code (A.eval p.2 (z, 0)))

/-- An iteration point. -/
def point (z : Sizes) (x : ℕ → ℤ) : State := (z, fun d => x d)

variable (A) in
def Admits (coords : List (F × F)) (z : Sizes) (x : ℕ → ℤ) : Prop :=
  ∀ d p, coords[d]? = some p →
    AtLeast (A.eval p.1 (point z x)) (x d) ∧ Below (A.eval p.2 (point z x)) (x d)

/-- For sizes that matrices can have, the points of the new region are the points of the old one
    that satisfy the clause, and no condition is left to the running code. -/
def FoldsExactly (Possible : Sizes → Prop) (region : Region A) (conditions : List (Clause F))
    (c : Clause F) : Prop :=
  ∃ coords, foldWhere M region.coords conditions c = some (coords, conditions) ∧
    ∀ z, Possible z → ∀ x, Admits A coords z x ↔
      Admits A region.coords z x ∧ c.Holds A (point z x)

/-! ## When a clause is folded exactly -/

/-- The lower bound after the fold, which keeps the old one if it is `known` to be larger. -/
def Op.newLower (op : Op) (known : Bool) (L : WithTop ℤ) (q : ℚ) : WithTop ℤ :=
  if op.smaller || known then L else truncate (op.lowerPoint q)

def Op.newUpper (op : Op) (known : Bool) (U : WithTop ℤ) (q : ℚ) : WithTop ℤ :=
  if op.larger || known then U else truncate (op.upperPoint q)

/-- The lower bound of the points that satisfy the clause. -/
def Op.clauseLower (op : Op) (L : WithTop ℤ) (q : ℚ) : WithTop ℤ :=
  if op.smaller then L else Max.max L (op.least q)

def Op.clauseUpper (op : Op) (U : WithTop ℤ) (q : ℚ) : WithTop ℤ :=
  if op.larger then U else Min.min U (op.bound q)

/-- The clause has no lower bound; or the old bound is kept, and has no point that the clause
    excludes; or the truncated point is the larger of the old bound and the first integer that
    satisfies the clause. -/
def Op.LowerFits (op : Op) (known : Bool) (L : WithTop ℤ) (q : ℚ) : Prop :=
  op.smaller = true ∨ (known = true ∧ op.least q ≤ L) ∨
    (known = false ∧ (truncate (op.lowerPoint q) : WithTop ℤ) = Max.max L (op.least q))

def Op.UpperFits (op : Op) (known : Bool) (U : WithTop ℤ) (q : ℚ) : Prop :=
  op.larger = true ∨ (known = true ∧ U ≤ op.bound q) ∨
    (known = false ∧ (truncate (op.upperPoint q) : WithTop ℤ) = Min.min U (op.bound q))

theorem Op.lowerFits_iff (op : Op) (known : Bool) (L : WithTop ℤ) (q : ℚ) :
    op.LowerFits known L q ↔ op.newLower known L q = op.clauseLower L q := by
  rw [Op.LowerFits, Op.newLower, Op.clauseLower]
  cases op.smaller with
  | true => simp
  | false => cases known <;> simp

theorem Op.upperFits_iff (op : Op) (known : Bool) (U : WithTop ℤ) (q : ℚ) :
    op.UpperFits known U q ↔ op.newUpper known U q = op.clauseUpper U q := by
  rw [Op.UpperFits, Op.newUpper, Op.clauseUpper]
  cases op.larger with
  | true => simp
  | false => cases known <;> simp

/-- The integers between two bounds that satisfy a relation. -/
theorem Op.clause_interval (op : Op) (L U : WithTop ℤ) (q : ℚ) (x : ℤ) :
    (L ≤ x ∧ (x : WithTop ℤ) < U) ∧ op.Holds ((x : ℚ) : WithTop ℚ) (q : WithTop ℚ) ↔
      op.clauseLower L q ≤ x ∧ (x : WithTop ℤ) < op.clauseUpper U q := by
  have hlow : op.clauseLower L q ≤ x ↔ L ≤ x ∧ (op.smaller = true ∨ op.least q ≤ x) := by
    rw [Op.clauseLower]
    cases op.smaller with
    | true => simp
    | false => simp
  have hup : (x : WithTop ℤ) < op.clauseUpper U q ↔
      (x : WithTop ℤ) < U ∧ (op.larger = true ∨ x < op.bound q) := by
    rw [Op.clauseUpper]
    cases op.larger with
    | true => simp
    | false => simp
  rw [op.holds_int_iff, hlow, hup, and_and_and_comm]

omit [DecidableEq F] in
/-- A region's points, by its ends. -/
theorem Region.admits_iff {coords : List (F × F)} (h : ∀ p ∈ coords, Sized A p.1 ∧ Sized A p.2)
    (z : Sizes) (x : ℕ → ℤ) :
    Admits A coords z x ↔ ∀ d p, coords[d]? = some p →
      (ends A p z).1 ≤ x d ∧ (x d : WithTop ℤ) < (ends A p z).2 := by
  refine forall_congr' fun d => forall_congr' fun p => imp_congr_right fun hp => ?_
  obtain ⟨hf, hg⟩ := h p (List.mem_of_getElem? hp)
  rw [atLeast_iff, below_iff, ends, point, hf z _ 0, hg z _ 0]

section Fold

variable {M} {c : Clause F} {d : ℕ} {a a' : ℤ} {b b' : SizeForm} {p f g : F}

/-- The formula for the lower bound. -/
def lowerFormula (A : Formulas F) (op : Op) (p : F) : F := if op.equal then p else A.plusOne p

def upperFormula (A : Formulas F) (op : Op) (p : F) : F := if op.equal then A.plusOne p else p

omit [DecidableEq F] in
theorem eval_lowerFormula (hp : IsCritical A p a a' b b') (op : Op) (s : State) :
    A.eval (lowerFormula A op p) s =
      ((op.lowerPoint (criticalValue a a' b b' s.1) : ℚ) : WithTop ℚ) := by
  rw [lowerFormula, Op.lowerPoint]
  split
  · exact hp s
  · rw [A.eval_plusOne, hp s]
    rfl

omit [DecidableEq F] in
theorem eval_upperFormula (hp : IsCritical A p a a' b b') (op : Op) (s : State) :
    A.eval (upperFormula A op p) s =
      ((op.upperPoint (criticalValue a a' b b' s.1) : ℚ) : WithTop ℚ) := by
  rw [upperFormula, Op.upperPoint]
  split
  · rw [A.eval_plusOne, hp s]
    rfl
  · exact hp s

/-- The sides that a relation allows. -/
theorem Op.exists_side_iff (op : Op) :
    ((∃ x : ℚ, op.Holds (x : WithTop ℚ) ((0 : ℚ) : WithTop ℚ) ∧
        Op.lt.Holds (x : WithTop ℚ) ((0 : ℚ) : WithTop ℚ)) ↔ op.smaller = true) ∧
      ((∃ x : ℚ, op.Holds (x : WithTop ℚ) ((0 : ℚ) : WithTop ℚ) ∧
        Op.eq.Holds (x : WithTop ℚ) ((0 : ℚ) : WithTop ℚ)) ↔ op.equal = true) ∧
      ((∃ x : ℚ, op.Holds (x : WithTop ℚ) ((0 : ℚ) : WithTop ℚ) ∧
        Op.gt.Holds (x : WithTop ℚ) ((0 : ℚ) : WithTop ℚ)) ↔ op.larger = true) := by
  refine ⟨⟨?_, fun h => ⟨-1, ?_⟩⟩, ⟨?_, fun h => ⟨0, ?_⟩⟩, ⟨?_, fun h => ⟨1, ?_⟩⟩⟩
  · rintro ⟨x, hx, hlt⟩
    have hlt : x < 0 := WithTop.coe_lt_coe.mp hlt
    rcases (op.holds_coe x 0).mp hx with h | h | h
    · exact h.2
    · exact absurd h.1 hlt.ne
    · exact absurd h.1 hlt.not_gt
  · exact ⟨(op.holds_coe _ _).mpr (.inl ⟨by norm_num, h⟩), WithTop.coe_lt_coe.mpr (by norm_num)⟩
  · rintro ⟨x, hx, heq⟩
    have heq : x = 0 := WithTop.coe_injective heq
    rcases (op.holds_coe x 0).mp hx with h | h | h
    · exact absurd heq h.1.ne
    · exact h.2
    · exact absurd heq h.1.ne'
  · exact ⟨(op.holds_coe _ _).mpr (.inr (.inl ⟨rfl, h⟩)), rfl⟩
  · rintro ⟨x, hx, hgt⟩
    have hgt : 0 < x := WithTop.coe_lt_coe.mp hgt
    rcases (op.holds_coe x 0).mp hx with h | h | h
    · exact absurd h.1 hgt.not_gt
    · exact absurd h.1 hgt.ne'
    · exact h.2
  · exact ⟨(op.holds_coe _ _).mpr (.inr (.inr ⟨by norm_num, h⟩)),
      WithTop.coe_lt_coe.mpr (by norm_num)⟩

/-- **ONE ROUND**: the bounds that a linear clause in one offset variable moves. -/
theorem foldWhere_eq {coords : List (F × F)} {conditions : List (Clause F)}
    (hvars : clauseVars A c = [.offset d]) (hl : IsLine (A.eval c.left) d a b)
    (hr : IsLine (A.eval c.right) d a' b') (hne : a ≠ a') (hsolve : A.solve c.left c.right d = [p])
    (hp : IsCritical A p a a' b b') (hd : coords[d]? = some (f, g)) :
    foldWhere M coords conditions c = some (coords.set d
      (if (c.op.solved a a').smaller then f else M.max f (lowerFormula A (c.op.solved a a') p),
        if (c.op.solved a a').larger then g else M.min g (upperFormula A (c.op.solved a a') p)),
      conditions) := by
  obtain ⟨hlt, heq, hgt⟩ := (c.op.solved a a').exists_side_iff
  have hsmaller := (tryCompare_ne_no_iff M hl hr hne hp .lt).trans hlt
  have hequal := (tryCompare_ne_no_iff M hl hr hne hp .eq).trans heq
  have hlarger := (tryCompare_ne_no_iff M hl hr hne hp .gt).trans hgt
  have hsides : (c.op.solved a a').smaller = true ∨ (c.op.solved a a').equal = true ∨
      (c.op.solved a a').larger = true := by
    cases c.op.solved a a' <;> decide
  rw [foldWhere, hvars]
  simp only [hsolve, trimImpossible, Option.bind_eq_bind, Option.bind_some,
    hsmaller, hequal, hlarger, if_pos hsides, hd]
  rfl

variable (A) in
/-- The bounds of the other dimensions. -/
def Others (coords : List (F × F)) (d : ℕ) (z : Sizes) (x : ℕ → ℤ) : Prop :=
  ∀ e ≠ d, ∀ r, coords[e]? = some r →
    (ends A r z).1 ≤ x e ∧ (x e : WithTop ℤ) < (ends A r z).2

omit [DecidableEq F] in
theorem admits_split {coords : List (F × F)} (h : ∀ r ∈ coords, Sized A r.1 ∧ Sized A r.2)
    {r : F × F} (hd : coords[d]? = some r) (z : Sizes) (x : ℕ → ℤ) :
    Admits A coords z x ↔ Others A coords d z x ∧
      (ends A r z).1 ≤ x d ∧ (x d : WithTop ℤ) < (ends A r z).2 := by
  rw [Region.admits_iff h]
  constructor
  · intro hall
    exact ⟨fun e _ r' hr' => hall e r' hr', hall d r hd⟩
  · rintro ⟨hothers, hhere⟩ e r' hr'
    by_cases he : e = d
    · subst he
      obtain rfl := Option.some.inj (hd.symm.trans hr')
      exact hhere
    · exact hothers e he r' hr'

omit [DecidableEq F] in
/-- What one dimension has to satisfy, if the others have a point at all. -/
theorem forall_others_iff (coords : List (F × F)) (d : ℕ) (z : Sizes) (P Q : ℤ → Prop) :
    (∀ x : ℕ → ℤ, (Others A coords d z x ∧ P (x d)) ↔ (Others A coords d z x ∧ Q (x d))) ↔
      (∃ e ≠ d, ∃ r, coords[e]? = some r ∧ (ends A r z).2 ≤ (ends A r z).1) ∨
        ∀ v, P v ↔ Q v := by
  constructor
  · intro h
    by_cases hempty : ∃ e ≠ d, ∃ r, coords[e]? = some r ∧ (ends A r z).2 ≤ (ends A r z).1
    · exact .inl hempty
    · refine .inr fun v => ?_
      -- the first point in each of the other dimensions
      have hpoint : ∀ e, ∃ i : ℤ, e ≠ d → ∀ r, coords[e]? = some r →
          (ends A r z).1 ≤ i ∧ (i : WithTop ℤ) < (ends A r z).2 := by
        intro e
        by_cases he : e = d
        · exact ⟨0, fun hne => absurd he hne⟩
        · cases hr : coords[e]? with
          | none => exact ⟨0, fun _ r hr' => nomatch hr'⟩
          | some r =>
              have hlt : (ends A r z).1 < (ends A r z).2 :=
                not_le.mp fun hle => hempty ⟨e, he, r, hr, hle⟩
              obtain ⟨i, hi⟩ := WithTop.ne_top_iff_exists.mp hlt.ne_top
              refine ⟨i, fun _ r' hr' => ?_⟩
              obtain rfl := Option.some.inj hr'
              exact ⟨hi.symm.le, hi.symm ▸ hlt⟩
      choose y hy using hpoint
      have hothers : Others A coords d z (Function.update y d v) := by
        intro e he r hr
        rw [Function.update_of_ne he]
        exact hy e he r hr
      have hv := h (Function.update y d v)
      rw [Function.update_self] at hv
      exact ⟨fun hP => (hv.mp ⟨hothers, hP⟩).2, fun hQ => (hv.mpr ⟨hothers, hQ⟩).2⟩
  · rintro (⟨e, he, r, hr, hle⟩ | h) x
    · have hno : ¬ Others A coords d z x := fun hothers =>
        absurd ((hothers e he r hr).1.trans_lt (hothers e he r hr).2) (not_lt.mpr hle)
      exact iff_of_false (fun h => hno h.1) (fun h => hno h.1)
    · rw [h]

theorem Maxima.max_eq_or (f g : F) : M.max f g = f ∨ M.max f g = g := by
  rw [Maxima.max]
  exact ite_eq_or_eq _ _ _

theorem Maxima.min_eq_or (f g : F) : M.min f g = f ∨ M.min f g = g := by
  rw [Maxima.min]
  exact ite_eq_or_eq _ _ _

/-- The ends of the dimension that a clause moves. -/
theorem ends_fold (hp : IsCritical A p a a' b b') (op : Op) (f g : F) (z : Sizes) :
    ends A (if op.smaller then f else M.max f (lowerFormula A op p),
        if op.larger then g else M.min g (upperFormula A op p)) z =
      (op.newLower (decide (M.tryCompare [] f .ge (lowerFormula A op p) = .YES))
          (ends A (f, g) z).1 (criticalValue a a' b b' z),
        op.newUpper (decide (M.tryCompare [] g .le (upperFormula A op p) = .YES))
          (ends A (f, g) z).2 (criticalValue a a' b b' z)) := by
  have hlow : code (A.eval (lowerFormula A op p) (z, 0)) =
      (truncate (op.lowerPoint (criticalValue a a' b b' z)) : WithTop ℤ) := by
    rw [eval_lowerFormula hp, code_coe]
  have hup : code (A.eval (upperFormula A op p) (z, 0)) =
      (truncate (op.upperPoint (criticalValue a a' b b' z)) : WithTop ℤ) := by
    rw [eval_upperFormula hp, code_coe]
  refine Prod.ext ?_ ?_
  · rw [ends, ends, Op.newLower, ← hlow, Maxima.max]
    cases op.smaller <;> by_cases hk : M.tryCompare [] f .ge (lowerFormula A op p) = .YES <;>
      simp [hk]
  · rw [ends, ends, Op.newUpper, ← hup, Maxima.min]
    cases op.larger <;> by_cases hk : M.tryCompare [] g .le (upperFormula A op p) = .YES <;>
      simp [hk]

/-- The bounds are formulas of the sizes still. -/
theorem sized_fold (region : Region A) (hp : IsCritical A p a a' b b') (op : Op)
    (hd : region.coords[d]? = some (f, g)) :
    ∀ r ∈ region.coords.set d (if op.smaller then f else M.max f (lowerFormula A op p),
        if op.larger then g else M.min g (upperFormula A op p)), Sized A r.1 ∧ Sized A r.2 := by
  have hfg := region.sized _ (List.mem_of_getElem? hd)
  have hlow : Sized A (lowerFormula A op p) := by
    intro z y y'
    rw [eval_lowerFormula hp, eval_lowerFormula hp]
  have hup : Sized A (upperFormula A op p) := by
    intro z y y'
    rw [eval_upperFormula hp, eval_upperFormula hp]
  intro r hr
  rcases List.mem_or_eq_of_mem_set hr with hr | rfl
  · exact region.sized r hr
  · constructor
    · show Sized A (if op.smaller then f else M.max f (lowerFormula A op p))
      split
      · exact hfg.1
      · rcases M.max_eq_or f (lowerFormula A op p) with h | h <;> rw [h]
        · exact hfg.1
        · exact hlow
    · show Sized A (if op.larger then g else M.min g (upperFormula A op p))
      split
      · exact hfg.2
      · rcases M.min_eq_or g (upperFormula A op p) with h | h <;> rw [h]
        · exact hfg.2
        · exact hup

/-- A fold, by the dimension that the clause is about. -/
theorem foldsExactly_iff_points {Possible : Sizes → Prop} {region : Region A}
    {conditions : List (Clause F)} (hvars : clauseVars A c = [.offset d])
    (hl : IsLine (A.eval c.left) d a b) (hr : IsLine (A.eval c.right) d a' b') (hne : a ≠ a')
    (hsolve : A.solve c.left c.right d = [p]) (hd : region.coords[d]? = some (f, g)) :
    let op := c.op.solved a a'
    let q := criticalValue a a' b b'
    FoldsExactly M Possible region conditions c ↔ ∀ z, Possible z → ∀ x : ℕ → ℤ,
      (Others A region.coords d z x ∧
        op.newLower (decide (M.tryCompare [] f .ge (lowerFormula A op p) = .YES))
          (ends A (f, g) z).1 (q z) ≤ x d ∧
        (x d : WithTop ℤ) < op.newUpper
          (decide (M.tryCompare [] g .le (upperFormula A op p) = .YES)) (ends A (f, g) z).2 (q z)) ↔
      (Others A region.coords d z x ∧ op.clauseLower (ends A (f, g) z).1 (q z) ≤ x d ∧
        (x d : WithTop ℤ) < op.clauseUpper (ends A (f, g) z).2 (q z)) := by
  intro op q
  have hp := isCritical_of_solve hl hr hne hsolve
  have hfold : foldWhere M region.coords conditions c = some (region.coords.set d
      (if op.smaller then f else M.max f (lowerFormula A op p),
        if op.larger then g else M.min g (upperFormula A op p)), conditions) :=
    foldWhere_eq hvars hl hr hne hsolve hp hd
  have hlt : d < region.coords.length := (List.getElem?_eq_some_iff.mp hd).1
  -- the points of the new region, and those of the old one that satisfy the clause
  have hnew := fun z x => admits_split (sized_fold (M := M) region hp op hd)
    (List.getElem?_set_self hlt) z x
  have hothers : ∀ z x r, Others A (region.coords.set d r) d z x ↔ Others A region.coords d z x := by
    intro z x r
    refine forall_congr' fun e => imp_congr_right fun he => ?_
    rw [List.getElem?_set_ne (Ne.symm he)]
  have hold : ∀ z x, Admits A region.coords z x ∧ c.Holds A (point z x) ↔
      Others A region.coords d z x ∧ op.clauseLower (ends A (f, g) z).1 (q z) ≤ x d ∧
        (x d : WithTop ℤ) < op.clauseUpper (ends A (f, g) z).2 (q z) := by
    intro z x
    rw [admits_split region.sized hd, holds_iff_solved hl hr hne, and_assoc]
    exact and_congr_right fun _ => op.clause_interval _ _ _ _
  have hmain : FoldsExactly M Possible region conditions c ↔ ∀ z, Possible z → ∀ x,
      Admits A (region.coords.set d
        (if op.smaller then f else M.max f (lowerFormula A op p),
          if op.larger then g else M.min g (upperFormula A op p))) z x ↔
      Admits A region.coords z x ∧ c.Holds A (point z x) := by
    constructor
    · rintro ⟨coords, hcoords, h⟩
      obtain rfl := congrArg Prod.fst (Option.some.inj (hfold.symm.trans hcoords))
      exact h
    · exact fun h => ⟨_, hfold, h⟩
  rw [hmain]
  refine forall_congr' fun z => imp_congr_right fun _ => forall_congr' fun x => ?_
  rw [hnew, hold, hothers, ends_fold hp]

/-- **FOLDED EXACTLY**: a clause that is a linear comparison in one offset variable, exactly if
    for all sizes some other dimension is empty, or both bounds fit, or the dimension has no
    point that satisfies the clause and is left without points. -/
theorem foldsExactly_iff {Possible : Sizes → Prop} {region : Region A}
    {conditions : List (Clause F)} (hvars : clauseVars A c = [.offset d])
    (hl : IsLine (A.eval c.left) d a b) (hr : IsLine (A.eval c.right) d a' b') (hne : a ≠ a')
    (hsolve : A.solve c.left c.right d = [p]) (hd : region.coords[d]? = some (f, g)) :
    let op := c.op.solved a a'
    let q := criticalValue a a' b b'
    let lowerKnown := decide (M.tryCompare [] f .ge (lowerFormula A op p) = .YES)
    let upperKnown := decide (M.tryCompare [] g .le (upperFormula A op p) = .YES)
    FoldsExactly M Possible region conditions c ↔ ∀ z, Possible z →
      (∃ e ≠ d, ∃ r, region.coords[e]? = some r ∧ (ends A r z).2 ≤ (ends A r z).1) ∨
      (op.LowerFits lowerKnown (ends A (f, g) z).1 (q z) ∧
        op.UpperFits upperKnown (ends A (f, g) z).2 (q z)) ∨
      (op.newUpper upperKnown (ends A (f, g) z).2 (q z) ≤
          op.newLower lowerKnown (ends A (f, g) z).1 (q z) ∧
        op.clauseUpper (ends A (f, g) z).2 (q z) ≤ op.clauseLower (ends A (f, g) z).1 (q z)) := by
  intro op q lowerKnown upperKnown
  refine (foldsExactly_iff_points hvars hl hr hne hsolve hd).trans
    (forall_congr' fun z => imp_congr_right fun _ => ?_)
  rw [op.lowerFits_iff, op.upperFits_iff, ← interval_eq_iff]
  exact forall_others_iff region.coords d z
    (fun v => op.newLower lowerKnown (ends A (f, g) z).1 (q z) ≤ v ∧
      (v : WithTop ℤ) < op.newUpper upperKnown (ends A (f, g) z).2 (q z))
    (fun v => op.clauseLower (ends A (f, g) z).1 (q z) ≤ v ∧
      (v : WithTop ℤ) < op.clauseUpper (ends A (f, g) z).2 (q z))

end Fold

/-! ## Half of a matrix -/

/-- A formula, by its values and its variables. -/
structure Term where
  value : State → WithTop ℚ
  vars : List FreeVar

/-- A coefficient of a formula that is linear in one variable. -/
def Term.coefficient (t : Term) (d : ℕ) (z : Sizes) : ℚ :=
  (t.value (z, Function.update 0 d 1)).untopD 0 - (t.value (z, 0)).untopD 0

theorem Term.coefficient_eq {t : Term} {d : ℕ} {a : ℤ} {b : SizeForm} (h : IsLine t.value d a b)
    (z : Sizes) : t.coefficient d z = a := by
  rw [Term.coefficient, h, h, WithTop.untopD_coe, WithTop.untopD_coe]
  simp

theorem Term.constant_eq {t : Term} {d : ℕ} {a : ℤ} {b : SizeForm} (h : IsLine t.value d a b)
    (z : Sizes) : (t.value (z, 0)).untopD 0 = b.value z := by
  rw [h, WithTop.untopD_coe]
  simp

def terms : Formulas Term where
  eval := Term.value
  freeVars := Term.vars
  offsetVar d := ⟨fun s => (s.2 d : ℚ), [.offset d]⟩
  plusOne t := ⟨fun s => t.value s + 1, t.vars⟩
  solve l r d := [⟨fun s => (((r.value (s.1, 0)).untopD 0 - (l.value (s.1, 0)).untopD 0) /
    (l.coefficient d s.1 - r.coefficient d s.1) : ℚ), (l.vars ∪ r.vars).filter (·.isConstant)⟩]
  eval_offsetVar _ _ := rfl
  eval_plusOne _ _ := rfl
  solve_line l r d a a' b b' hl hr _ := by
    refine ⟨_, rfl, fun s => ?_⟩
    show ((_ : ℚ) : WithTop ℚ) = _
    rw [Term.coefficient_eq hl, Term.coefficient_eq hr, Term.constant_eq hl, Term.constant_eq hr]

noncomputable instance : DecidableEq Term := Classical.decEq Term

/-- A relation holds for all large sizes, where some clauses do. -/
def Always (Γ : List (Clause Term)) (r : State → Prop) : Prop :=
  ∀ s : State, 1000 < s.1 0 → (∀ c ∈ Γ, c.Holds terms s) → r s

open Classical in
/-- A system that knows all there is to know for large sizes. -/
noncomputable def oracle : Maxima terms where
  Assumed z := 1000 < z 0
  satisfiable := ⟨fun _ => 1001, by decide⟩
  is Γ f op g :=
    if Always Γ fun s => op.Holds (f.value s) (g.value s) then .YES
    else if Always Γ fun s => ¬ op.Holds (f.value s) (g.value s) then .NO
    else .UNKNOWN
  yes Γ f op g h := by
    split at h
    · assumption
    · split at h <;> cases h
  no Γ f op g h := by
    split at h
    · cases h
    · split at h
      · assumption
      · cases h
  yes_of_linear Γ f op g _ _ _ _ h := if_pos h
  no_of_linear Γ f op g _ _ _ hpoint h := by
    obtain ⟨s, hs, hc⟩ := hpoint
    have hno : ¬ Always Γ fun s => op.Holds (f.value s) (g.value s) :=
      fun hyes => h s hs hc (hyes s hs hc)
    rw [if_neg hno]
    exact if_pos h

def sizeTerm : Term := ⟨fun s => ((s.1 0 : ℤ) : ℚ), [.constant 0]⟩

def numberTerm (n : ℤ) : Term := ⟨fun _ => (n : ℚ), []⟩

/-- From zero up to the size. -/
def wholeRegion : Region terms where
  coords := [(numberTerm 0, sizeTerm)]
  sized r hr := by
    obtain rfl := List.mem_singleton.mp hr
    exact ⟨fun _ _ _ => rfl, fun _ _ _ => rfl⟩

/-- `a*x`. -/
def multiple (a : ℤ) : Term := ⟨fun s => (a * s.2 0 : ℚ), [.offset 0]⟩

theorem isLine_multiple (a : ℤ) : IsLine (multiple a).value 0 a ⟨[], 0⟩ := by
  intro s
  simp [multiple, SizeForm.value]

theorem isLine_sizeTerm : IsLine sizeTerm.value 0 0 ⟨[(1, 0)], 0⟩ := by
  intro s
  simp [sizeTerm, SizeForm.value]

theorem isLine_numberTerm (n : ℤ) : IsLine (numberTerm n).value 0 0 ⟨[], n⟩ := by
  intro s
  simp [numberTerm, SizeForm.value]

/-- `x >= 1` is folded exactly. -/
theorem foldsExactly_from_one :
    FoldsExactly oracle (fun z => 0 ≤ z 0) wholeRegion [] ⟨multiple 1, .ge, numberTerm 1⟩ := by
  obtain ⟨p, hsolve, hp⟩ := terms.solve_line (multiple 1) (numberTerm 1) 0 1 0 _ _
    (isLine_multiple 1) (isLine_numberTerm 1) (by decide)
  change IsCritical terms p 1 0 _ _ at hp
  have hq : ∀ z, criticalValue 1 0 ⟨[], 0⟩ ⟨[], 1⟩ z = ((1 : ℤ) : ℚ) := by
    intro z
    simp [criticalValue, SizeForm.value]
  refine (foldsExactly_iff (by decide) (isLine_multiple 1) (isLine_numberTerm 1) (by decide)
    hsolve rfl).mpr fun z _ => .inr (.inl ⟨.inr (.inr ⟨?_, ?_⟩), .inl rfl⟩)
  · -- zero is not known to be as large as one
    refine decide_eq_false fun hyes => ?_
    have hle := Maxima.holds_of_yes hyes (s := (fun _ => 1001, 0)) (by decide : (1000 : ℤ) < 1001)
      fun _ hc => nomatch hc
    rw [lowerFormula, if_pos (by rfl), hp, hq] at hle
    revert hle
    show ¬ ((_ : ℚ) : WithTop ℚ) ≤ ((_ : ℚ) : WithTop ℚ)
    rw [WithTop.coe_le_coe]
    norm_num
  · show ((truncate (criticalValue 1 0 ⟨[], 0⟩ ⟨[], 1⟩ z) : ℤ) : WithTop ℤ) =
      Max.max (truncate ((0 : ℤ) : ℚ) : WithTop ℤ) (⌈criticalValue 1 0 ⟨[], 0⟩ ⟨[], 1⟩ z⌉ : ℤ)
    rw [hq, truncate_intCast, truncate_intCast, Int.ceil_intCast]
    rfl

/-- `2*x < n`: of three elements the clause admits two, and the region has one left. -/
theorem half_not_folded :
    ¬ FoldsExactly oracle (fun z => 0 ≤ z 0) wholeRegion [] ⟨multiple 2, .lt, sizeTerm⟩ := by
  obtain ⟨p, hsolve, hp⟩ := terms.solve_line (multiple 2) sizeTerm 0 2 0 _ _ (isLine_multiple 2)
    isLine_sizeTerm (by decide)
  change IsCritical terms p 2 0 _ _ at hp
  have hq : ∀ z : Sizes, criticalValue 2 0 ⟨[], 0⟩ ⟨[(1, 0)], 0⟩ z = z 0 / 2 := by
    intro z
    simp [criticalValue, SizeForm.value]
  intro hfolds
  have h := (foldsExactly_iff_points (by decide) (isLine_multiple 2) isLine_sizeTerm (by decide)
    hsolve rfl).mp hfolds
  have hothers : Others terms wholeRegion.coords 0 (fun _ => 3) fun _ => 1 := by
    intro e he r hr
    obtain ⟨hlt, -⟩ := List.getElem?_eq_some_iff.mp hr
    exact absurd (Nat.lt_one_iff.mp hlt) he
  obtain ⟨-, -, hbelow⟩ := (h (fun _ => 3) (by decide) (fun _ => 1)).mpr ⟨hothers, by
    rw [hq]
    decide +kernel⟩
  have hknown : decide (oracle.tryCompare [] sizeTerm .le (upperFormula terms .lt p) = .YES) =
      false := by
    -- the size is not known to be at most its half
    refine decide_eq_false fun hyes => ?_
    have hle := Maxima.holds_of_yes hyes (s := (fun _ => 1001, 0))
      (by decide : (1000 : ℤ) < 1001) fun _ hc => nomatch hc
    rw [eval_upperFormula hp, hq] at hle
    have hle : ((1001 : ℤ) : ℚ) ≤ (1001 : ℤ) / 2 := WithTop.coe_le_coe.mp hle
    norm_num at hle
  rw [hq] at hbelow
  revert hbelow
  show ¬ _ < Op.newUpper .lt (decide (oracle.tryCompare [] sizeTerm .le (upperFormula terms .lt p) = .YES)) _ _
  rw [hknown]
  decide +kernel

end PbWhereClause
