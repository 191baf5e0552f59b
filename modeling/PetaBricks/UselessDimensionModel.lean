import PetaBricks.DataDependencyModel

/-!
# Useless dimensions — taking the last dimension off a temporary matrix

A temporary (`through`) matrix whose last dimension only numbers its versions, each computed from
the one before, need not keep them all.  The scheduler collects the distances between what each
rule reads and what it writes (`computeDataDependencyVector`), decides from them and from the
accesses of the other rules whether the last dimension is useless (`findUselessDimensions`), and
takes it off the matrix and off the regions of the nodes and of the rules.
`generateSchedule` does so once for each choice assignment it goes through.

The comparisons stop the compiler when their answer is not known and an assertion needs it; an
index past the end of a vector is a stop of its own.
-/

namespace PbUselessDimension

open PbOrderedMap PbMaxima PbDataDependency
open PbScheduler (Node Rule)

inductive Stop
  | assertion
  | outOfRange
  deriving DecidableEq, Repr

/-! ## Regions and rules -/

/-- A region of a matrix: the lower and upper coordinate of each dimension it has, and of each
    dimension it had. -/
structure Region (F : Type) where
  matrix : Matrix
  coords : List (F × F)
  removedDimensions : List (F × F)
  deriving DecidableEq

abbrev CoordinateFormula (F : Type) := List F

/-- `v.erase(v.begin() + dimension)`. -/
def eraseAt {α : Type} (v : List α) (dimension : Nat) : Except Stop (List α) :=
  if dimension < v.length then .ok (v.eraseIdx dimension) else .error .outOfRange

def Region.removeDimension {F : Type} (r : Region F) (dimension : Nat) :
    Except Stop (Region F) :=
  match r.coords[dimension]? with
  | none => .error .outOfRange
  | some c =>
      .ok { r with
        coords := r.coords.eraseIdx dimension
        removedDimensions := r.removedDimensions ++ [c] }

/-- What the compiler does with formulas besides comparing them. -/
structure Formulas {F S : Type} (M : MaximaWrapper F S) where
  literal : Int → F
  subtract : F → F → F
  normalize : F → F
  rhs : F → F
  offsetVar : Rule → Nat → F
  eval_literal : ∀ i s, M.eval (literal i) s = i
  eval_subtract : ∀ a b s, M.eval (subtract a b) s = M.eval a s - M.eval b s
  eval_normalize : ∀ a s, M.eval (normalize a) s = M.eval a s

/-- What the removal of dimensions changes: the sizes of the matrices, the regions of the nodes,
    and the regions and definitions of the rules. -/
structure StaticScheduler (F : Type) where
  size : Matrix → List F
  region : Node → Region F
  toRegions : Rule → List (Region F)
  fromRegions : Rule → List (Region F)
  definitions : Rule → List F

/-- A transform when its schedule is to be generated.  Rules that are not user rules have no
    regions of their own. -/
structure Transform {F S : Type} (M : MaximaWrapper F S) (fm : Formulas M) where
  isThrough : Matrix → Bool
  allNodes : List Node
  choices : Node → List Rule
  isUserRule : Rule → Bool
  initial : StaticScheduler F
  nodup : allNodes.Nodup
  choices_nodup : ∀ n ∈ allNodes, (choices n).Nodup
  synthetic : ∀ r, isUserRule r = false → initial.toRegions r = [] ∧ initial.fromRegions r = []
  region_dimensions : ∀ n ∈ allNodes,
    (initial.region n).coords.length = (initial.size (initial.region n).matrix).length
  to_dimensions : ∀ r, ∀ q ∈ initial.toRegions r,
    q.coords.length = (initial.size q.matrix).length
  from_dimensions : ∀ r, ∀ q ∈ initial.fromRegions r,
    q.coords.length = (initial.size q.matrix).length

namespace Transform

variable {F S : Type} [DecidableEq F] {M : MaximaWrapper F S} {fm : Formulas M}
  (tx : Transform M fm)

/-- The rules of all nodes, one node after the other: what a `rule_iterator` runs through. -/
def rules : List Rule := tx.allNodes.flatMap tx.choices

/-! ## Data dependency vectors -/

/-- The differences of the lower coordinates. -/
def computeDDVAsDifference (fm : Formulas M) (inputRegion outputRegion : Region F) :
    CoordinateFormula F :=
  List.zipWith (fun i o => fm.normalize (fm.subtract i.1 o.1))
    inputRegion.coords outputRegion.coords

/-- The entries of `_dataDependencyVectorMap`, in the order they are inserted: one for each pair
    of a region written and a region read of one matrix. -/
def dataDependencyVectorMap (r : Rule) : List (Matrix × CoordinateFormula F) :=
  (tx.initial.toRegions r).flatMap fun outputRegion =>
    ((tx.initial.fromRegions r).filter
      (fun inputRegion => inputRegion.matrix = outputRegion.matrix)).map fun inputRegion =>
        (inputRegion.matrix, computeDDVAsDifference fm inputRegion outputRegion)

/-- The comparison of `DataDepSetCompare` from where the vectors may differ. -/
def compareFrom (M : MaximaWrapper F S) :
    CoordinateFormula F → CoordinateFormula F → Except Stop Bool
  | a :: as, b :: bs =>
      match M.compare a .eq b with
      | none => .error .assertion
      | some true => if as.isEmpty then .ok false else compareFrom M as bs
      | some false =>
          match M.compare a .lt b with
          | none => .error .assertion
          | some answer => .ok answer
  | _, _ => .error .outOfRange

def dataDepSetCompare (M : MaximaWrapper F S) (a b : CoordinateFormula F) : Except Stop Bool :=
  if a.length ≠ b.length then .ok (a.length < b.length) else compareFrom M a b

/-- Insertion into a `DataDependencySet`, kept in the order of `DataDepSetCompare`: a vector
    that is neither before nor after another is the same. -/
def insertVector (M : MaximaWrapper F S) (v : CoordinateFormula F) :
    List (CoordinateFormula F) → Except Stop (List (CoordinateFormula F))
  | [] => .ok [v]
  | x :: rest => do
      if ← dataDepSetCompare M x v then
        let rest ← insertVector M v rest
        .ok (x :: rest)
      else if ← dataDepSetCompare M v x then .ok (v :: x :: rest)
      else .ok (x :: rest)

abbrev MatrixDataDependencyMap (F : Type) := OrderedMap Matrix (List (CoordinateFormula F))

/-- The body of the loop of `importDataDepsFromRule`. -/
def importVector (dataDepsMap : MatrixDataDependencyMap F)
    (entry : Matrix × CoordinateFormula F) : Except Stop (MatrixDataDependencyMap F) :=
  if tx.isThrough entry.1 then do
    let dataDepSet ← insertVector M entry.2 ((dataDepsMap.find entry.1).getD [])
    .ok (dataDepsMap.insert entry.1 dataDepSet)
  else .ok dataDepsMap

def importDataDepsFromRule (dataDepsMap : MatrixDataDependencyMap F) (rule : Rule) :
    Except Stop (MatrixDataDependencyMap F) :=
  (tx.dataDependencyVectorMap rule).foldlM tx.importVector dataDepsMap

def getDataDepsForTemporaryMatrixes : Except Stop (MatrixDataDependencyMap F) :=
  tx.rules.foldlM tx.importDataDepsFromRule ∅

/-! ## Finding useless dimensions -/

inductive DimensionStatus
  | ALWAYS_MINUS1
  | ALWAYS_ZERO
  | OTHER
  deriving DecidableEq, Repr

def isDimensionDependencyAlwaysEqualTo (fm : Formulas M) (dimension : Nat) (value : Int) :
    List (CoordinateFormula F) → Except Stop Bool
  | [] => .ok true
  | v :: rest =>
      match v[dimension]? with
      | none => .error .outOfRange
      | some dependency =>
          match M.compare dependency .eq (fm.literal value) with
          | none => .error .assertion
          | some false => .ok false
          | some true => isDimensionDependencyAlwaysEqualTo fm dimension value rest

def dimensionStatus (fm : Formulas M) (matrixSelfDependencies : List (CoordinateFormula F))
    (dim : Nat) : Except Stop DimensionStatus := do
  if ← isDimensionDependencyAlwaysEqualTo fm dim (-1) matrixSelfDependencies then
    .ok .ALWAYS_MINUS1
  else if ← isDimensionDependencyAlwaysEqualTo fm dim 0 matrixSelfDependencies then
    .ok .ALWAYS_ZERO
  else .ok .OTHER

/-- Does this region access its matrix in the middle? Or just at the end? -/
def accessInTheMiddle (M : MaximaWrapper F S) (st : StaticScheduler F) (region : Region F)
    (dimension : Nat) : Except Stop Bool :=
  match region.coords[dimension]?, (st.size region.matrix)[dimension]? with
  | none, _ => .error .outOfRange
  | some _, none => .error .assertion
  | some c, some dimSize => .ok (!M.comparePessimistically c.2 .eq dimSize)

/-- Whether a dimension is filtered out because of a region. -/
def isFiltered (M : MaximaWrapper F S) (st : StaticScheduler F) (region : Region F)
    (dimension : Nat) : Except Stop Bool :=
  if (st.size region.matrix).length ≤ dimension then .ok true
  else accessInTheMiddle M st region dimension

/-- The loop of `filterAccess` over the dimensions, from one iterator to the end as it was before
    anything was erased. -/
def filterDimensions (M : MaximaWrapper F S) (st : StaticScheduler F) (region : Region F) :
    Nat → Nat → List Nat → Except Stop (List Nat)
  | 0, _, uselessDimensions => .ok uselessDimensions
  | left + 1, dimIt, uselessDimensions =>
      match uselessDimensions[dimIt]? with
      | none => .error .outOfRange
      | some dimension => do
          let erased ← isFiltered M st region dimension
          filterDimensions M st region left (dimIt + 1)
            (if erased then uselessDimensions.eraseIdx dimIt else uselessDimensions)

def filterAccess (M : MaximaWrapper F S) (st : StaticScheduler F) (uselessDimensions : List Nat)
    (regionList : List (Region F)) : Except Stop (List Nat) :=
  regionList.foldlM
    (fun dims region => filterDimensions M st region dims.length 0 dims) uselessDimensions

/-- The second loop is over the regions written, and adds the regions read again. -/
def getNonSelfDependentRegions (st : StaticScheduler F) (r : Rule) : List (Region F) :=
  ((st.fromRegions r).flatMap fun inp =>
    ((st.toRegions r).filter (fun out => inp.matrix ≠ out.matrix)).map fun _ => inp) ++
  (st.toRegions r).flatMap fun out =>
    (st.fromRegions r).filter (fun inp => inp.matrix ≠ out.matrix)

def filterNonSelfDependentAccesses (st : StaticScheduler F) (uselessDimensions : List Nat)
    (matrix : Matrix) : Except Stop (List Nat) :=
  tx.rules.foldlM
    (fun dims rule => filterAccess M st dims
      ((getNonSelfDependentRegions st rule).filter (fun q => q.matrix = matrix)))
    uselessDimensions

/-- The last dimension is useless if it is -1 data dependent and all the others are 0 data
    dependent.  With no dimension at all the loop over the others does not end before it has left
    the vector of statuses. -/
def findUselessDimensions (st : StaticScheduler F)
    (matrixSelfDependencies : List (CoordinateFormula F)) (matrix : Matrix) :
    Except Stop (List Nat) :=
  match matrixSelfDependencies with
  | [] => .error .outOfRange
  | v :: _ => do
      let matrixStatus ← (List.range v.length).mapM (dimensionStatus fm matrixSelfDependencies)
      match matrixStatus.getLast? with
      | none => .error .outOfRange
      | some last =>
          if matrixStatus.dropLast.any (· ≠ .ALWAYS_ZERO) then .ok []
          else
            tx.filterNonSelfDependentAccesses st
              (if last = .ALWAYS_MINUS1 then [v.length - 1] else []) matrix

/-! ## Removing them -/

def removeDimensionFromRegionList (list : List (Region F)) (matrix : Matrix) (dimension : Nat) :
    Except Stop (List (Region F)) :=
  list.mapM (fun region =>
    if region.matrix ≠ matrix then .ok region else region.removeDimension dimension)

/-- The names of the offset variables are in a table of ten. -/
def removeDimensionFromDefinitions (fm : Formulas M) (r : Rule) (definitions : List F)
    (dimension : Nat) : Except Stop (List F) :=
  if dimension < 10 then
    .ok (definitions.eraseP (fun definition => fm.rhs definition = fm.offsetVar r dimension))
  else .error .assertion

/-- `removeDimensionFromMatrix` of a rule; only user rules do something. -/
def removeDimensionFromMatrix (matrix : Matrix) (dimension : Nat) (st : StaticScheduler F)
    (r : Rule) : Except Stop (StaticScheduler F) :=
  if tx.isUserRule r then do
    let toRegions ← removeDimensionFromRegionList (st.toRegions r) matrix dimension
    let fromRegions ← removeDimensionFromRegionList (st.fromRegions r) matrix dimension
    let definitions ← removeDimensionFromDefinitions fm r (st.definitions r) dimension
    .ok { st with
      toRegions := Function.update st.toRegions r toRegions
      fromRegions := Function.update st.fromRegions r fromRegions
      definitions := Function.update st.definitions r definitions }
  else .ok st

/-- The region directly associated with the node. -/
def removeDimensionFromNode (matrix : Matrix) (dimension : Nat) (st : StaticScheduler F)
    (n : Node) : Except Stop (StaticScheduler F) :=
  if (st.region n).matrix = matrix then do
    let region ← (st.region n).removeDimension dimension
    .ok { st with region := Function.update st.region n region }
  else .ok st

/-- `removeDimensionFromRegions` of a node: its region and the regions of its rules. -/
def removeDimensionFromRegions (matrix : Matrix) (dimension : Nat) (st : StaticScheduler F)
    (n : Node) : Except Stop (StaticScheduler F) := do
  let st ← removeDimensionFromNode matrix dimension st n
  (tx.choices n).foldlM (tx.removeDimensionFromMatrix matrix dimension) st

/-- One dimension, off the matrix and off all nodes. -/
def removeDimension (matrix : Matrix) (st : StaticScheduler F) (dim : Nat) :
    Except Stop (StaticScheduler F) := do
  let size ← eraseAt (st.size matrix) dim
  tx.allNodes.foldlM (tx.removeDimensionFromRegions matrix dim)
    { st with size := Function.update st.size matrix size }

/-- The body of the loop of `removeUselessDimensions` over the matrices. -/
def removeFromMatrix (st : StaticScheduler F) (entry : Matrix × List (CoordinateFormula F)) :
    Except Stop (StaticScheduler F) := do
  let uselessDimensions ← tx.findUselessDimensions st entry.2 entry.1
  uselessDimensions.foldlM (tx.removeDimension entry.1) st

def removeUselessDimensions (st : StaticScheduler F) : Except Stop (StaticScheduler F) := do
  let tempMatrixesDataDeps ← tx.getDataDepsForTemporaryMatrixes
  tempMatrixesDataDeps.entries.foldlM tx.removeFromMatrix st

/-- The removals of a run of `generateSchedule` through a number of choice assignments. -/
def generateSchedule : Nat → StaticScheduler F → Except Stop (StaticScheduler F)
  | 0, st => .ok st
  | n + 1, st => do
      let st ← tx.removeUselessDimensions st
      generateSchedule n st

end Transform

end PbUselessDimension
