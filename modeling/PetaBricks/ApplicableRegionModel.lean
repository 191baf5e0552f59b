import PetaBricks.DataDependencyModel
import PetaBricks.RoundingProofs
import Mathlib.Algebra.Order.Ring.Rat
import Mathlib.Algebra.Order.Monoid.WithTop
import Mathlib.Data.Finset.Basic

/-!
# The applicable region of a rule

Each region a rule accesses must lie in its matrix.  `Region::getApplicableRegion` solves the
equations that put the corners of a region on the border of the matrix for the offset variables,
which gives the iteration points where it does; `UserRule::buildApplicableRegion` intersects what
the regions give.

Formulas have rational values: integer division is what the generated code makes of them.  What
the computer algebra system computes is a parameter, with what it promises for rational
polynomials as laws.
-/

namespace PbApplicableRegion

open PbMaxima (TryCompareResult)
open PbDataDependency (SimpleRegion Cell)

/-! ## The computer algebra system -/

/-- A variable of a formula: an offset variable, by its dimension, a constant of the transform,
    such as a size, or another one. -/
inductive FreeVar
  | offset (d : Nat)
  | constant (n : Nat)
  | other (n : Nat)
  deriving DecidableEq

def FreeVar.isConstant : FreeVar → Bool
  | constant _ => true
  | _ => false

/-- An affine function of one coordinate of the iteration point. -/
def line {Z : Type} (v : Nat) (a : ℤ) (b : Z → ℤ) (s : Z × Cell) : ℤ := a * s.2 v + b s.1

/-- Formulas evaluate at the matrix sizes and the iteration point, `inf` to infinity. -/
structure Formulas (F Z : Type) where
  eval : F → Z × Cell → WithTop ℚ
  freeVars : F → Finset FreeVar
  integer : ℤ → F
  inf : F
  add : F → F → F
  subtract : F → F → F
  divide : F → F → F
  normalize : F → F
  /-- The numerator and the denominator, less one, over the denominator; not for a leaf. -/
  staticCeiling : F → F
  diff : F → Nat → F
  /-- Equations that mention an offset variable, solved for it. -/
  solve : List (F × F) → Nat → List F
  freeVars_integer : ∀ n, freeVars (integer n) = ∅
  eval_integer : ∀ n s, eval (integer n) s = (n : ℚ)
  eval_inf : ∀ s, eval inf s = ⊤
  eval_add : ∀ f g s, eval (add f g) s = eval f s + eval g s
  eval_subtract : ∀ f g s (p q : ℚ), eval f s = p → eval g s = q → eval (subtract f g) s = (p - q : ℚ)
  eval_divide : ∀ f g s (p q : ℚ), eval f s = p → (∀ s, eval g s = q) → q ≠ 0 →
    eval (divide f g) s = (p / q : ℚ)
  eval_normalize : ∀ f s, eval (normalize f) s = eval f s
  eval_staticCeiling : ∀ f, ∃ D : ℕ, 0 < D ∧ ∀ s (p : ℚ), eval f s = p →
    (∃ N : ℤ, p * D = N) ∧ eval (staticCeiling f) s = (p + (D - 1) / D : ℚ)
  eval_diff : ∀ f v a b, (∀ s, eval f s = (line v a b s : ℚ)) → ∀ s, eval (diff f v) s = (a : ℚ)
  solve_line : ∀ l f v a b (c : Z → ℤ), (∀ s, eval l s = (c s.1 : ℚ)) →
    (∀ s, eval f s = (line v a b s : ℚ)) → a ≠ 0 →
    ∃ r, solve [(l, f)] v = [r] ∧ ∀ s, eval r s = ((c s.1 - b s.1) / a : ℚ)

/-- The comparisons that are made. -/
inductive Op
  | le
  | ge
  | lt
  | gt
  deriving DecidableEq

def Op.Holds : Op → WithTop ℚ → WithTop ℚ → Prop
  | .le, p, q => p ≤ q
  | .ge, p, q => q ≤ p
  | .lt, p, q => p < q
  | .gt, p, q => q < p

/-- The answer for identical texts. -/
def Op.identical : Op → TryCompareResult
  | .le | .ge => .YES
  | .lt | .gt => .NO

/-- A context: comparisons are decided under assumptions, or not, but a number is known to be
    negative or not. -/
structure Maxima {F Z : Type} (A : Formulas F Z) where
  Assumed : Z × Cell → Prop
  is : F → Op → F → TryCompareResult
  yes : ∀ a op b, is a op b = .YES → ∀ s, Assumed s → op.Holds (A.eval a s) (A.eval b s)
  no : ∀ a op b, is a op b = .NO → ∀ s, Assumed s → ¬ op.Holds (A.eval a s) (A.eval b s)
  number : ∀ f (q : ℚ), (∀ s, A.eval f s = q) → (is f .lt (A.integer 0) = .YES ↔ q < 0)

variable {F Z : Type} [DecidableEq F] {A : Formulas F Z} (M : Maxima A)

variable (A) in
/-- `Formula::negative`. -/
def Formulas.negative (f : F) : F := A.normalize (A.subtract (A.integer 0) f)

namespace Maxima

def tryCompare (a : F) (op : Op) (b : F) : TryCompareResult :=
  if a = b then op.identical else M.is a op b

/-- `MaximaWrapper::min`: the second formula, unless the first is known to be no larger. -/
def min (a b : F) : F := if M.tryCompare a .le b = .YES then a else b

/-- `MaximaWrapper::max`. -/
def max (a b : F) : F := if M.tryCompare a .ge b = .YES then a else b

/-- Several solutions: one that is known to be no match for its neighbour goes, as long as the
    first two can be told. -/
def trim (op : Op) : F → List F → List F
  | a, [] => [a]
  | a, b :: rest =>
      if M.tryCompare b op a = .YES then trim op b rest
      else if M.tryCompare a op b = .YES then trim op a rest
      else a :: b :: rest

end Maxima

variable (A) in
/-- Whether an equation mentions an offset variable. -/
def mentions (i : Nat) (e : F × F) : Bool := .offset i ∈ A.freeVars e.1 ∪ A.freeVars e.2

variable (A) in
/-- `MaximaWrapper::solve`. -/
def solve (eqs : List (F × F)) (i : Nat) : List F := A.solve (eqs.filter (mentions A i)) i

/-- `MaximaWrapper::retrySolve`, with the comparison of `minSolve` or `maxSolve`. -/
def retrySolve (op : Op) (eqs : List (F × F)) (i : Nat) : List F :=
  let joint := solve A eqs i
  let rv := if joint = [] then (eqs.filter (mentions A i)).flatMap fun e => solve A [e] i else joint
  match rv with
  | [] => []
  | a :: rest => M.trim op a rest

/-- `RuleInterface::trimImpossible`, which asserts that there is one solution. -/
def trimImpossible : List F → Option F
  | [f] => some f
  | _ => none

/-! ## One region -/

/-- One dimension of a region, and the size of the matrix there. -/
structure Coordinate (F : Type) where
  minCoord : F
  maxCoord : F
  sizeOfDimension : F

/-- A region of a matrix that a rule accesses. -/
structure Region (F : Type) where
  coords : List (Coordinate F)
  isOptional : Bool

namespace Region

def dimensions (r : Region F) : Nat := r.coords.length

end Region

variable (A) in
/-- The free variables that are not constants of the transform. -/
def nonConstants (f : F) : Finset FreeVar := (A.freeVars f).filter fun v => !v.isConstant

variable (A) in
/-- `Region::diff` at one of the coordinates of a region with `dimensions` dimensions. -/
def diffCoord (dimensions : Nat) (f : F) : F :=
  if (nonConstants A f).card = 1 then
    match (List.range dimensions).find? fun d => .offset d ∈ nonConstants A f with
    | some d => A.diff f d
    | none => A.integer 0
  else A.integer 0

/-- Whether a coordinate is found to grow inversely proportional to its offset variable. -/
def falls (r : Region F) (c : Coordinate F) : Bool :=
  M.tryCompare (diffCoord A r.dimensions c.maxCoord) .lt (A.integer 0) = .YES

/-- `offsets`. -/
def offset (r : Region F) (c : Coordinate F) : F :=
  if falls M r c then A.negative (diffCoord A r.dimensions c.maxCoord)
  else diffCoord A r.dimensions c.maxCoord

/-- `minDefs`: the corner that is on the border at the first point. -/
def minDef (r : Region F) (c : Coordinate F) : F × F :=
  if falls M r c then (c.sizeOfDimension, c.maxCoord) else (A.integer 0, c.minCoord)

/-- `maxDefs`. -/
def maxDef (r : Region F) (c : Coordinate F) : F × F :=
  if falls M r c then (A.integer 0, c.minCoord) else (c.sizeOfDimension, c.maxCoord)

def minDefs (r : Region F) : List (F × F) := r.coords.map (minDef M r)

def maxDefs (r : Region F) : List (F × F) := r.coords.map (maxDef M r)

/-- The lower bound of offset variable `i`, where `c` is coordinate `i`. -/
def lowerBound (r : Region F) (i : Nat) (c : Coordinate F) : Option F :=
  if (minDefs M r).any (mentions A i) then
    (trimImpossible (retrySolve M .gt (minDefs M r) i)).map A.staticCeiling
  else if A.freeVars c.minCoord = ∅ then some c.minCoord
  else some (A.integer 0)

/-- The first point beyond a solution, before it is rounded. -/
def beyond (r : Region F) (c : Coordinate F) (f : F) : F :=
  if offset M r c = A.integer 0 then A.add f (A.integer 1)
  else A.add f (A.divide (A.integer 1) (offset M r c))

variable (A) in
/-- How a bound is rounded. -/
def round (isOutput : Bool) (f : F) : F := if isOutput then A.normalize f else A.staticCeiling f

/-- The upper bound of offset variable `i`, where `c` is coordinate `i`. -/
def upperBound (r : Region F) (isOutput : Bool) (i : Nat) (c : Coordinate F) : Option F :=
  if (maxDefs M r).any (mentions A i) then
    (trimImpossible (retrySolve M .lt (maxDefs M r) i)).map fun f =>
      round A isOutput (beyond M r c f)
  else if A.freeVars c.maxCoord = ∅ then
    some (A.normalize (if isOutput then A.add c.maxCoord (A.integer 1) else A.inf))
  else if isOutput then some c.sizeOfDimension
  else some A.inf

/-- The bounds of the offset variables from `i` on. -/
def bounds (r : Region F) (isOutput : Bool) : Nat → List (Coordinate F) → Option (List (F × F))
  | _, [] => some []
  | i, c :: cs => do
      let min ← lowerBound M r i c
      let max ← upperBound M r isOutput i c
      let rest ← bounds r isOutput (i + 1) cs
      pure ((min, max) :: rest)

/-- `Region::getApplicableRegion`. -/
def getApplicableRegion (r : Region F) (isOutput : Bool) : Option (SimpleRegion F) :=
  (bounds M r isOutput 0 r.coords).map SimpleRegion.mk

/-! ## The rule -/

/-- `SimpleRegion::intersect` with a region that has no more dimensions. -/
def intersectLower (a b : SimpleRegion F) : SimpleRegion F :=
  ⟨List.zipWith (fun p q => (M.max p.1 q.1, M.min p.2 q.2)) a.coords b.coords
    ++ a.coords.drop b.dimensions⟩

/-- `SimpleRegion::intersect`. -/
def intersect (a b : SimpleRegion F) : SimpleRegion F :=
  if a.dimensions < b.dimensions then intersectLower M b a else intersectLower M a b

/-- One turn of the loops of `buildApplicableRegion`. -/
def meet (isOutput : Bool) (ar : Option (SimpleRegion F)) (r : Region F) :
    Option (Option (SimpleRegion F)) := do
  let t ← getApplicableRegion M r isOutput
  match ar with
  | some ar => some (some (intersect M ar t))
  | none => some (some t)

/-- `UserRule::buildApplicableRegion`; optional outputs are not allowed, and there must be some
    region. -/
def buildApplicableRegion (allowOptional : Bool) (toRegions fromRegions : List (Region F)) :
    Option (SimpleRegion F) := do
  let ar ← toRegions.foldlM (fun ar r => if r.isOptional then none else meet M true ar r) none
  let ar ← fromRegions.foldlM (fun ar r =>
    if allowOptional && r.isOptional then some ar else meet M false ar r) ar
  ar

/-! ## What the bounds mean -/

/-- A lower bound, as the generated code evaluates it. -/
def AtLeast (bound : WithTop ℚ) (x : ℤ) : Prop := ∃ q : ℚ, bound = q ∧ PbRounding.truncate q ≤ x

/-- An upper bound. -/
def Below (bound : WithTop ℚ) (x : ℤ) : Prop := ∀ q : ℚ, bound = q → x < PbRounding.truncate q

variable (A) in
/-- The points that `n` loops with the bounds of a region visit. -/
def Admits (n : Nat) (ar : SimpleRegion F) (s : Z × Cell) : Prop :=
  ∀ d < n, ∀ c, ar.coords[d]? = some c →
    AtLeast (A.eval c.1 s) (s.2 d) ∧ Below (A.eval c.2 s) (s.2 d)

variable (A) in
/-- A region in its matrix. -/
def Region.Inside (r : Region F) (s : Z × Cell) : Prop :=
  ∀ c ∈ r.coords, 0 ≤ A.eval c.minCoord s ∧ A.eval c.maxCoord s ≤ A.eval c.sizeOfDimension s

/-- The regions that must be in their matrices, with whether they are written. -/
def mandatory (toRegions fromRegions : List (Region F)) : List (Region F × Bool) :=
  toRegions.map (·, true) ++ (fromRegions.filter fun r => !r.isOptional).map (·, false)

end PbApplicableRegion
