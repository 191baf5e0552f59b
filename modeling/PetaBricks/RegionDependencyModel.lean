import PetaBricks.DataDependencyProofs
import PetaBricks.MergingMapProofs
import Mathlib.Logic.Function.Basic

/-!
# From the regions of a rule to its dependencies

A user rule accesses regions, whose corners are formulas over the matrix sizes and the offset
variables, the coordinates of the iteration point.  `Region::collectDependencies` records, for
the matrix of each region, in which directions the region lies from the iteration point, and a
region without offset variables that should cover it for every iteration point; regions of one
matrix are merged.  The bounding boxes merge the regions themselves.

What the computer algebra system computes is a parameter, with what it promises as laws.
-/

namespace PbRegionDependency

open PbOrderedMap PbMergingMap PbScheduler PbMaxima PbDataDependency

/-! ## The computer algebra system -/

/-- A variable of a formula that is not a constant of the transform: an offset variable, by its
    dimension, or another one. -/
inductive FreeVar
  | offset (d : Nat)
  | other (n : Nat)
  deriving DecidableEq

/-- Formulas evaluate at the matrix sizes and the iteration point. -/
structure Formulas (F Z : Type) where
  eval : F → Z × Cell → Int
  /-- Free variables that are not constants. -/
  freeVars : F → Finset FreeVar
  integer : Int → F
  getOffsetVar : Nat → F
  /-- The normalised difference. -/
  subtract : F → F → F
  diff : F → Nat → F
  /-- The formula with an offset variable replaced. -/
  subst : Nat → F → F → F
  eval_integer : ∀ n s, eval (integer n) s = n
  eval_getOffsetVar : ∀ d z x, eval (getOffsetVar d) (z, x) = x d
  eval_subtract : ∀ a b s, eval (subtract a b) s = eval a s - eval b s
  eval_subst : ∀ d g f z x,
    eval (subst d g f) (z, x) = eval f (z, Function.update x d (eval g (z, x)))
  eval_congr : ∀ f z x y, (∀ d, .offset d ∈ freeVars f → x d = y d) →
    eval f (z, x) = eval f (z, y)

/-- A context: comparisons are decided under assumptions, about the sizes or the iteration point
    too. -/
structure Maxima {F Z : Type} (A : Formulas F Z) where
  Assumed : Z × Cell → Prop
  is : F → Op → F → TryCompareResult
  yes : ∀ a op b, is a op b = .YES → ∀ s, Assumed s → op.Holds (A.eval a s) (A.eval b s)
  no : ∀ a op b, is a op b = .NO → ∀ s, Assumed s → ¬ op.Holds (A.eval a s) (A.eval b s)

variable {F Z : Type} [DecidableEq F] {A : Formulas F Z} (M : Maxima A)

namespace Maxima

/-- Its answers are true wherever the assumptions hold. -/
def wrapper (M : Maxima A) : MaximaWrapper F {s // M.Assumed s} where
  eval f s := A.eval f s.1
  is := M.is
  yes a op b h s := M.yes a op b h s.1 s.2
  no a op b h s := M.no a op b h s.1 s.2

def tryCompare (a : F) (op : Op) (b : F) : TryCompareResult := M.wrapper.tryCompare a op b

/-- `MaximaWrapper::min`: the second formula, unless the first is known to be no larger. -/
def min (a b : F) : F := if M.tryCompare a .le b = .YES then a else b

/-- `MaximaWrapper::max`. -/
def max (a b : F) : F := if M.tryCompare a .ge b = .YES then a else b

theorem holds_of_yes {M : Maxima A} {a b : F} {op : Op} (h : M.tryCompare a op b = .YES)
    {s : Z × Cell} (hs : M.Assumed s) : op.Holds (A.eval a s) (A.eval b s) :=
  MaximaWrapper.holds_of_yes h ⟨s, hs⟩

end Maxima

/-! ## Regions -/

variable (A) in
/-- Whether a cell is in a region, at some sizes and iteration point. -/
def Formulas.Contains (r : SimpleRegion F) (s : Z × Cell) (cell : Cell) : Prop :=
  ∀ d c, r.coords[d]? = some c → A.eval c.1 s ≤ cell d ∧ cell d < A.eval c.2 s

/-- A region of a matrix that a rule accesses. -/
structure Region (F : Type) where
  fromMatrix : Matrix
  corners : SimpleRegion F
  isOptional : Bool

/-- `SimpleRegion::regionUnion`, which asserts that the dimensions agree. -/
def regionUnion (a b : SimpleRegion F) : Option (SimpleRegion F) :=
  if a.dimensions = b.dimensions then
    some ⟨List.zipWith (fun p q => (M.min p.1 q.1, M.max p.2 q.2)) a.coords b.coords⟩
  else none

/-- `MatrixDependency::mergeWith`. -/
def mergeWith (dep that : MatrixDependency F) : Option (MatrixDependency F) :=
  (regionUnion M dep.region that.region).map fun region =>
    ⟨dep.direction.addDirection that.direction, region⟩

/-- When `determineDependencyDirection` adds `D_EQ`: the branches of its last condition. -/
def addsEqual (x minCoord maxCoord : F) : Bool :=
  let isLeft := M.tryCompare x .lt maxCoord
  let isRight := M.tryCompare x .ge minCoord
  if isLeft = .UNKNOWN ∨ isRight = .UNKNOWN ∨ isLeft = isRight then true
  else if isLeft = .YES then M.tryCompare x .lt minCoord ≠ .YES
  else M.tryCompare x .ge maxCoord ≠ .YES

/-- `determineDependencyDirection`, in one dimension: `x` is the offset variable. -/
def determineDependencyDirection (x minCoord maxCoord : F) : DirectionT :=
  let isLeft := M.tryCompare x .lt maxCoord
  let isRight := M.tryCompare x .ge minCoord
  (if isLeft ≠ .YES then D_LT else D_NONE) ||| (if isRight ≠ .YES then D_GT else D_NONE)
    ||| (if addsEqual M x minCoord maxCoord then D_EQ else D_NONE)

def direction (r : SimpleRegion F) : DependencyDirection :=
  ⟨r.coords.mapIdx fun d c => determineDependencyDirection M (A.getOffsetVar d) c.1 c.2⟩

variable (A) in
/-- `Region::diff` at one of the coordinates of a region with `dimensions` dimensions. -/
def diffCoord (dimensions : Nat) (f : F) : F :=
  if (A.freeVars f).card = 1 then
    match (List.range dimensions).find? fun d => .offset d ∈ A.freeVars f with
    | some d => A.diff f d
    | none => A.integer 0
  else A.integer 0

variable (A) in
/-- `FormulaList::makeRelativeTo` at one formula: the definitions are of offset variables, from
    dimension `d` on. -/
def makeRelativeTo : Nat → List F → F → F
  | _, [], f => f
  | d, g :: defs, f =>
      makeRelativeTo (d + 1) defs (if .offset d ∈ A.freeVars f then A.subst d g f else f)

/-- Whether a coordinate is found to fall with its offset variable. -/
def fallsWith (dimensions : Nat) (c : F × F) : Bool :=
  M.tryCompare (diffCoord A dimensions c.2) .lt (A.integer 0) = .YES

/-- One dimension of the region that is recorded. -/
def absoluteCoord (applicable : List (F × F)) (dimensions : Nat) (c : F × F) : F × F :=
  let minDefs := applicable.map Prod.fst
  let maxDefs := applicable.map fun b => A.subtract b.2 (A.integer 1)
  let falls := fallsWith M dimensions c
  let c := if falls then c.swap else c
  let c := (makeRelativeTo A 0 minDefs c.1, makeRelativeTo A 0 maxDefs c.2)
  if falls then c.swap else c

/-- The region that is recorded for a region of a rule with this applicable region. -/
def absolute (applicable : SimpleRegion F) (r : SimpleRegion F) : SimpleRegion F :=
  ⟨r.coords.map (absoluteCoord M applicable.coords r.dimensions)⟩

/-- What `Region::collectDependencies` merges into the map. -/
def dependency (applicable : SimpleRegion F) (r : Region F) : Matrix × MatrixDependency F :=
  (r.fromMatrix, ⟨direction M r.corners, absolute M applicable r.corners⟩)

/-- `Region::collectDependencies` for the regions of a rule that are read, or written. -/
def collectDependencies (applicable : SimpleRegion F) (regions : List (Region F)) :
    Option (MatrixDependencyMap F) :=
  mergeAll (mergeWith M) (regions.map (dependency M applicable))

/-! ## Bounding boxes -/

abbrev MatrixToRegionMap (F : Type) := OrderedMap Matrix (SimpleRegion F)

/-- The loop of the bounding boxes. -/
def buildBoundingBox (regions : List (Region F)) : Option (MatrixToRegionMap F) :=
  mergeAll (regionUnion M) (regions.map fun r => (r.fromMatrix, r.corners))

/-- `_toBoundingBox`. -/
def buildToBoundingBox (toRegions : List (Region F)) : Option (MatrixToRegionMap F) :=
  buildBoundingBox M toRegions

/-- `_fromBoundingBox` and `_fromBoundingBoxNoOptional`; optional regions are not implemented
    where execution may be distributed. -/
def buildFromBoundingBox (distributed : Bool) (fromRegions : List (Region F)) :
    Option (MatrixToRegionMap F × MatrixToRegionMap F) :=
  if distributed && fromRegions.any Region.isOptional then none
  else do
    let all ← buildBoundingBox M fromRegions
    let noOptional ← buildBoundingBox M (fromRegions.filter fun r => !r.isOptional)
    pure (all, noOptional)

/-- `_scratchBoundingBox`: the boxes of what is read go into the map of what is written. -/
def buildScratchBoundingBox (toBoundingBox fromBoundingBoxNoOptional : MatrixToRegionMap F) :
    Option (MatrixToRegionMap F) :=
  fromBoundingBoxNoOptional.entries.foldlM (mergeInto (regionUnion M)) toBoundingBox

/-! ## The rule -/

/-- The regions of a user rule. -/
structure RuleRegions (F : Type) where
  toRegions : List (Region F)
  fromRegions : List (Region F)

/-- What a rule records of its accesses. -/
structure Accesses (F : Type) where
  fromBoundingBox : MatrixToRegionMap F
  fromBoundingBoxNoOptional : MatrixToRegionMap F
  toBoundingBox : MatrixToRegionMap F
  scratchBoundingBox : MatrixToRegionMap F
  depends : MatrixDependencyMap F
  provides : MatrixDependencyMap F

/-- The bounding boxes and dependencies of `UserRule::initialize`.  By the time of the
    dependencies, more is assumed. -/
def RuleRegions.accesses (M M' : Maxima A) (distributed : Bool) (applicable : SimpleRegion F)
    (rule : RuleRegions F) : Option (Accesses F) := do
  let (fromBox, noOptional) ← buildFromBoundingBox M distributed rule.fromRegions
  let toBox ← buildToBoundingBox M rule.toRegions
  let scratch ← buildScratchBoundingBox M toBox noOptional
  let depends ← collectDependencies M' applicable rule.fromRegions
  let provides ← collectDependencies M' applicable rule.toRegions
  pure ⟨fromBox, noOptional, toBox, scratch, depends, provides⟩

end PbRegionDependency
