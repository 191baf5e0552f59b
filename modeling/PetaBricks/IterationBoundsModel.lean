import PetaBricks.MaximaProofs
import PetaBricks.OrderedMapProofs
import PetaBricks.RegionGeometryProofs
import Mathlib.Algebra.Order.Ring.Int
import Mathlib.Logic.Function.Basic

/-!
# Iteration bounds — the part of a matrix that a block of iterations needs

A distributed rule runs its iterations in blocks.  For each block, the cells of a matrix that
its iterations access are copied to a local scratch matrix, and the accesses are rewritten to
it.  `UserRule::buildScratchBoundingBox` makes one region of all that the rule accesses of a
matrix, `SimpleRegion::getIterationLowerBounds` and `getIterationUpperBounds` put the corners of
the block for the offset variables in it, and `Region::generateAccessorCode` makes the access,
relative to where the scratch matrix begins.

What the computer algebra system computes is a parameter.  That it is exact means that a
comparison is known to hold if it holds throughout the context it is made in.
-/

namespace PbIterationBounds

open PbMaxima (TryCompareResult)
open PbOrderedMap (OrderedMap)
open PbRegionMatrix (Geometry)

/-! ## Formulas -/

/-- What formulas are evaluated at: the sizes, the offset variables of a rule, and the variables
    for the first iteration of a block and for the one behind its last in each dimension. -/
structure State (Z : Type) where
  sizes : Z
  offset : Nat → ℤ
  iterBegin : Nat → ℤ
  iterEnd : Nat → ℤ

/-- The same block at another iteration. -/
def State.atPoint {Z : Type} (s : State Z) (x : Nat → ℤ) : State Z := { s with offset := x }

/-- One offset variable has another value. -/
def State.move {Z : Type} (s : State Z) (j : Nat) (v : ℤ) : State Z :=
  s.atPoint (Function.update s.offset j v)

/-- The formulas of a rule with so many dimensions.  `replace` puts a formula for a variable. -/
structure Formulas (F Z : Type) where
  dimensions : Nat
  eval : F → State Z → ℤ
  integer : ℤ → F
  add : F → F → F
  subtract : F → F → F
  normalize : F → F
  replace : F → F → F → F
  offsetVar : Nat → F
  beginVar : Nat → F
  endVar : Nat → F
  eval_integer : ∀ n s, eval (integer n) s = n
  eval_add : ∀ f g s, eval (add f g) s = eval f s + eval g s
  eval_subtract : ∀ f g s, eval (subtract f g) s = eval f s - eval g s
  eval_normalize : ∀ f s, eval (normalize f) s = eval f s
  eval_replace : ∀ f j g s, j < dimensions →
    eval (replace f (offsetVar j) g) s = eval f (s.move j (eval g s))
  eval_beginVar : ∀ j s, j < dimensions → eval (beginVar j) s = s.iterBegin j
  eval_endVar : ∀ j s, j < dimensions → eval (endVar j) s = s.iterEnd j

namespace Formulas

variable {F Z : Type} (A : Formulas F Z)

def zero : F := A.integer 0

def one : F := A.integer 1

def plusOne (f : F) : F := A.normalize (A.add f A.one)

/-- `FormulaList::subToEach`. -/
def subToEach (fs : List F) (x : F) : List F := fs.map fun f => A.normalize (A.subtract f x)

/-- `FormulaList::sub`; the other list must not end earlier. -/
def sub : List F → List F → Option (List F)
  | [], _ => some []
  | f :: fs, g :: gs => (sub fs gs).map (A.subtract f g :: ·)
  | _ :: _, [] => none

/-- The values of a coordinate. -/
def evals (fs : List F) (s : State Z) : List ℤ := fs.map fun f => A.eval f s

/-! The iteration definition. -/

def var : List F := (List.range A.dimensions).map A.offsetVar

def iterBegin : List F := (List.range A.dimensions).map A.beginVar

def iterEnd : List F := (List.range A.dimensions).map A.endVar

def iterEndInclusive : List F := A.subToEach A.iterEnd A.one

/-- The offsets of the block of a state. -/
def Offsets (s : State Z) (x : Nat → ℤ) : Prop :=
  ∀ j, j < A.dimensions → s.iterBegin j ≤ x j ∧ x j < s.iterEnd j

/-- The block has an iteration. -/
def Nonempty (s : State Z) : Prop := ∀ j, j < A.dimensions → s.iterBegin j < s.iterEnd j

end Formulas

/-! ## The computer algebra system -/

/-- The comparisons of `min` and `max`. -/
inductive Op
  | le
  | ge
  deriving DecidableEq

def Op.Holds : Op → ℤ → ℤ → Prop
  | .le, p, q => p ≤ q
  | .ge, p, q => q ≤ p

/-- `MaximaWrapper::is`, in the context of facts `a < b`.  It is exact where these say that the
    first iteration of a block is less than the last. -/
structure Maxima {F Z : Type} (A : Formulas F Z) where
  is : List (F × F) → F → Op → F → TryCompareResult
  exact : ∀ a op b, is (A.iterBegin.zip A.iterEndInclusive) a op b = .YES ↔
    ∀ s : State Z, (∀ j, j < A.dimensions → s.iterBegin j < s.iterEnd j - 1) →
      op.Holds (A.eval a s) (A.eval b s)

section Bounds

variable {F Z : Type} [DecidableEq F] {A : Formulas F Z} (M : Maxima A)

namespace Maxima

/-- Two formulas with one text are equal. -/
def tryCompare (facts : List (F × F)) (a : F) (op : Op) (b : F) : TryCompareResult :=
  if a = b then .YES else M.is facts a op b

/-- `MaximaWrapper::min`, or `max` for `≥`: the second formula, unless the comparison is known to
    hold. -/
def choose (facts : List (F × F)) (op : Op) (a b : F) : F :=
  if M.tryCompare facts a op b = .YES then a else b

def min (facts : List (F × F)) (a b : F) : F := M.choose facts .le a b

def max (facts : List (F × F)) (a b : F) : F := M.choose facts .ge a b

end Maxima

/-! ## Regions -/

structure SimpleRegion (F : Type) where
  minCoord : List F
  maxCoord : List F
  removedMinCoord : List F
  removedMaxCoord : List F

namespace SimpleRegion

variable (r that : SimpleRegion F) (facts : List (F × F))

/-- The loop over what is to be replaced: one end, or the other one. -/
def replaceLoop (op : Op) (ends : List (F × F × F)) (f : F) : F :=
  ends.foldl (fun f e => M.choose facts op (A.replace f e.1 e.2.1) (A.replace f e.1 e.2.2)) f

/-- The bounds of a coordinate, in the context that says that the first end is less. -/
def iterationBounds (op : Op) (coord replaceWhat with1 with2 : List F) : List F :=
  coord.map fun f =>
    A.normalize (replaceLoop M (with1.zip with2) op (replaceWhat.zip (with1.zip with2)) f)

def getIterationLowerBounds (replaceWhat with1 with2 : List F) : List F :=
  iterationBounds M .le (r.minCoord ++ r.removedMinCoord) replaceWhat with1 with2

def getIterationUpperBounds (replaceWhat with1 with2 : List F) : List F :=
  iterationBounds M .ge (r.maxCoord ++ r.removedMaxCoord) replaceWhat with1 with2

def regionUnion : Option (SimpleRegion F) :=
  if r.minCoord.length = that.minCoord.length then
    some ⟨List.zipWith (M.min facts) r.minCoord that.minCoord,
      List.zipWith (M.max facts) r.maxCoord that.maxCoord, [], []⟩
  else none

/-- `removeDimension`, of a dimension that there is. -/
def removeDimension (dimension : Nat) : Option (SimpleRegion F) := do
  let min ← r.minCoord[dimension]?
  let max ← r.maxCoord[dimension]?
  some ⟨r.minCoord.eraseIdx dimension, r.maxCoord.eraseIdx dimension,
    r.removedMinCoord ++ [min], r.removedMaxCoord ++ [max]⟩

/-- The bounds of the block. -/
def lowerBounds : List F := r.getIterationLowerBounds M A.var A.iterBegin A.iterEndInclusive

def upperBounds : List F := r.getIterationUpperBounds M A.var A.iterBegin A.iterEndInclusive

end SimpleRegion

inductive RegionType
  | cell
  | row
  | col
  | box
  | slice
  | all
  deriving DecidableEq

abbrev Matrix := Nat

structure Region (F : Type) extends SimpleRegion F where
  matrix : Matrix
  version : Option F
  type : RegionType
  isOptional : Bool

namespace Region

variable (A) in
/-- The coordinates of `Region::initialize`, by the kind of region and its arguments, or none if
    an assertion fails. -/
def coordinates (size : List F) (version : Option F) :
    RegionType → List F → Option (RegionType × List F × List F)
  | .cell, bounds =>
      if size.length = bounds.length + version.toList.length then
        some (.cell, bounds, bounds.map A.plusOne)
      else none
  | .col, [x] =>
      match size with
      | [_, height] => some (.col, [x, A.zero], [A.add x A.one, height])
      | _ => none
  | .row, [y] =>
      match size with
      | [width, _] => some (.row, [A.zero, y], [width, A.add y A.one])
      | _ => none
  | .box, bounds =>
      if bounds.length % 2 = 0 ∧ size.length = bounds.length / 2 + version.toList.length then
        some (.box, bounds.take (bounds.length / 2), bounds.drop (bounds.length / 2))
      else none
  | .all, [] =>
      if size.length - version.toList.length = 0 then some (.cell, [], [])
      else
        some (.all, List.replicate (size.length - version.toList.length) A.zero,
          size.take (size.length - version.toList.length))
  | _, _ => none

variable (A) in
/-- `Region::initialize`; the version is the last coordinate. -/
def initializeRegion (matrix : Matrix) (size : List F) (version : Option F) (isOptional : Bool)
    (originalType : RegionType) (originalBounds : List F) : Option (Region F) :=
  if isOptional && originalType != .cell then none
  else
    (coordinates A size version originalType (originalBounds.map A.normalize)).map fun c =>
      { minCoord := c.2.1 ++ version.toList
        maxCoord := c.2.2 ++ version.toList.map A.plusOne
        removedMinCoord := []
        removedMaxCoord := []
        matrix := matrix
        version := version
        type := c.1
        isOptional := isOptional }

/-- `Region::makeRelativeTo`, by what it makes of a formula. -/
def makeRelativeTo (relative : F → F) (r : Region F) : Region F :=
  { r with minCoord := r.minCoord.map relative, maxCoord := r.maxCoord.map relative }

def removeDimension (dimension : Nat) (r : Region F) : Option (Region F) :=
  (r.toSimpleRegion.removeDimension dimension).map fun q => { r with toSimpleRegion := q }

/-- `UserRule::removeDimensionFromRegionList`, for the regions of the matrix. -/
def removeDimensionFromRegionList (dimension : Nat) (rs : List (Region F)) :
    Option (List (Region F)) :=
  rs.mapM (removeDimension dimension)

def fixTypeIfVersioned (r : Region F) : Region F :=
  if r.version.isSome && r.type = .all && r.removedMinCoord.length = 0 then
    { r with type := .slice }
  else r

end Region

/-- A generated access to a matrix. -/
inductive Accessor (α : Type)
  | cell (coord : List α)
  | col (x : α)
  | row (y : α)
  | region (c1 c2 : List α)
  | slice (d : Nat) (pos : α)
  | all
  deriving DecidableEq

def Accessor.map {α β : Type} (g : α → β) : Accessor α → Accessor β
  | .cell coord => .cell (coord.map g)
  | .col x => .col (g x)
  | .row y => .row (g y)
  | .region c1 c2 => .region (c1.map g) (c2.map g)
  | .slice d pos => .slice d (g pos)
  | .all => .all

/-- What the access hands over of a matrix. -/
def Accessor.view : Accessor ℤ → Geometry → Geometry
  | .cell coord, g => ⟨[], fun _ => g.cell coord⟩
  | .col x, g => g.apply (.slice 0 x)
  | .row y, g => g.apply (.slice 1 y)
  | .region c1 c2, g => g.apply (.region c1 c2)
  | .slice d pos, g => g.apply (.slice d pos)
  | .all, g => g

namespace Region

/-- The access of a kind, to a matrix of so many dimensions. -/
def accessor {α : Type} (numDimensions : Nat) (minCoord maxCoord : List α) :
    RegionType → Option (Accessor α)
  | .cell => some (.cell minCoord)
  | .col => minCoord[0]?.map .col
  | .row => minCoord[1]?.map .row
  | .box => some (.region minCoord maxCoord)
  | .slice => minCoord.getLast?.map (.slice (numDimensions - 1))
  | .all => some .all

/-- `Region::generateAccessorCode()`, for a region that is not optional. -/
def generateAccessorCode (numDimensions : Nat) (r : Region F) : Option (Accessor F) :=
  accessor numDimensions r.minCoord r.maxCoord r.type

variable (A) in
/-- `Region::generateAccessorCode(base)`. -/
def generateAccessorCodeFrom (numDimensions : Nat) (r : Region F) (base : List F) :
    Option (Accessor F) := do
  let minCoord ← A.sub r.minCoord base
  let maxCoord ← A.sub r.maxCoord base
  accessor numDimensions minCoord maxCoord r.type

end Region

/-! ## Bounding boxes -/

abbrev MatrixToRegionMap (F : Type) := OrderedMap Matrix (SimpleRegion F)

variable (facts : List (F × F))

/-- One more region of a matrix. -/
def addRegion (boxes : MatrixToRegionMap F) (m : Matrix) (r : SimpleRegion F) :
    Option (MatrixToRegionMap F) :=
  match boxes.find m with
  | some box => (box.regionUnion M r facts).map (boxes.insert m)
  | none => some (boxes.insert m r)

def buildToBoundingBox (toRegions : List (Region F)) : Option (MatrixToRegionMap F) :=
  toRegions.foldlM (fun boxes r => addRegion M facts boxes r.matrix r.toSimpleRegion) ∅

/-- `_fromBoundingBoxNoOptional`; an optional input is not implemented. -/
def buildFromBoundingBoxNoOptional (fromRegions : List (Region F)) :
    Option (MatrixToRegionMap F) :=
  fromRegions.foldlM (fun boxes r =>
    if r.isOptional then none else addRegion M facts boxes r.matrix r.toSimpleRegion) ∅

def buildScratchBoundingBox (toBoundingBox fromBoundingBoxNoOptional : MatrixToRegionMap F) :
    Option (MatrixToRegionMap F) :=
  fromBoundingBoxNoOptional.entries.foldlM (fun boxes e => addRegion M facts boxes e.1 e.2)
    toBoundingBox

/-- The boxes that `UserRule::initialize` builds, in the context of facts about the sizes. -/
def scratchBoundingBox (toRegions fromRegions : List (Region F)) :
    Option (MatrixToRegionMap F) := do
  let toBoundingBox ← buildToBoundingBox M facts toRegions
  let fromBoundingBox ← buildFromBoundingBoxNoOptional M facts fromRegions
  buildScratchBoundingBox M facts toBoundingBox fromBoundingBox

end Bounds

end PbIterationBounds
