import PetaBricks.SchedulerModel
import PetaBricks.MaximaProofs

/-!
# Collecting dependencies — from the regions rules access to edges between nodes

Each node of the scheduler stands for a region of a matrix, with symbolic bounds.  A user rule
knows for each matrix it writes, or reads, a region that covers what it accesses and the
directions of the accesses as seen from its iteration point.  `UserRule::collectDependencies`
looks up the nodes of these regions (`lookupNode`, which compares symbolic bounds) and adds a
dependency for each pair that the directions do not rule out (`dependencyPossible`).  Wrapper
rules pass the call on to the rules they wrap.
-/

namespace PbDataDependency

open PbOrderedMap PbScheduler PbMaxima

/-! ## Regions -/

/-- The lower and upper coordinate in each dimension. -/
structure SimpleRegion (F : Type) where
  coords : List (F × F)
  deriving DecidableEq

/-- The coordinates of a cell, or of an iteration point. -/
abbrev Cell := Nat → Int

section Regions

variable {F S : Type} [DecidableEq F] (M : MaximaWrapper F S)

def SimpleRegion.dimensions (r : SimpleRegion F) : Nat := r.coords.length

/-- The cells of a region at a choice of sizes. -/
def SimpleRegion.Contains (r : SimpleRegion F) (s : S) (cell : Cell) : Prop :=
  ∀ d c, r.coords[d]? = some c → M.eval c.1 s ≤ cell d ∧ cell d < M.eval c.2 s

/-- The loop over the dimensions of `hasIntersect`. -/
def intersects : List (F × F) → List (F × F) → Option Bool
  | a :: as, b :: bs => do
      if ← M.compare a.2 .le b.1 then some false
      else if ← M.compare a.1 .ge b.2 then some false
      else intersects as bs
  | _, _ => some true

def SimpleRegion.hasIntersect (r that : SimpleRegion F) : Option Bool :=
  if r = that then some true
  else if r.dimensions ≠ that.dimensions then some false
  else intersects M r.coords that.coords

def D_LE : DirectionT := D_LT ||| D_EQ

def D_GE : DirectionT := D_GT ||| D_EQ

/-- Whether the regions of two nodes allow a dependency of the first on the second in one
    dimension, given its directions there. -/
def dimensionPossible (a b : F × F) (dir : DirectionT) : Bool :=
  !((dir = D_GT || dir = D_GE) && M.comparePessimistically a.1 .ge b.2) &&
    !((dir = D_LT || dir = D_LE) && M.comparePessimistically b.1 .ge a.2)

/-- `dependencyPossible`, for the regions of the two nodes. -/
def dependencyPossible (a b : SimpleRegion F) (dir : DependencyDirection) : Bool :=
  (a.coords.zip b.coords).zipIdx.all (fun c => dimensionPossible M c.1.1 c.1.2 (dir.mask c.2))

end Regions

/-! ## Rules -/

abbrev Matrix := Nat

/-- A region that covers the accesses to a matrix, and their directions. -/
structure MatrixDependency (F : Type) where
  direction : DependencyDirection
  region : SimpleRegion F

abbrev MatrixDependencyMap (F : Type) := OrderedMap Matrix (MatrixDependency F)

structure UserRule (F : Type) where
  id : Rule
  dimensions : Nat
  provides : MatrixDependencyMap F
  depends : MatrixDependencyMap F

/-- A rule.  `wrapper` is a duplicate of a rule or its version for the GPU, `whereExpansion`
    tries the where clauses of several rules. -/
inductive RuleInterface (F : Type)
  | user (rule : UserRule F)
  | wrapper (id : Rule) (rule : RuleInterface F)
  | whereExpansion (id : Rule) (rules : List (RuleInterface F))

def RuleInterface.id {F : Type} : RuleInterface F → Rule
  | .user rule => rule.id
  | .wrapper id _ => id
  | .whereExpansion id _ => id

mutual

/-- The user rules that can run when a rule is chosen. -/
def RuleInterface.userRules {F : Type} : RuleInterface F → List (UserRule F)
  | .user rule => [rule]
  | .wrapper _ rule => rule.userRules
  | .whereExpansion _ rules => userRulesOf rules

def userRulesOf {F : Type} : List (RuleInterface F) → List (UserRule F)
  | [] => []
  | r :: rest => r.userRules ++ userRulesOf rest

end

/-! ## The transform -/

/-- A transform when its dependencies are collected: the nodes of each matrix, and the scheduler
    as it was constructed, its nodes marked as inputs and outputs and without dependencies.
    The nodes of a matrix are pieces of it that do not overlap. -/
structure Transform {F S : Type} (M : MaximaWrapper F S) where
  numDimensions : Matrix → Nat
  matrixToNodes : Matrix → List Node
  region : Node → SimpleRegion F
  rules : List (RuleInterface F)
  scheduler : StaticScheduler
  nodup : scheduler.allNodes.Nodup
  mem_allNodes : ∀ m, ∀ n ∈ matrixToNodes m, n ∈ scheduler.allNodes
  dimensions_region : ∀ m, ∀ n ∈ matrixToNodes m, (region n).dimensions = numDimensions m
  disjoint : ∀ m, ∀ a ∈ matrixToNodes m, ∀ b ∈ matrixToNodes m, ∀ s cell,
    (region a).Contains M s cell → (region b).Contains M s cell → a = b
  no_depends : ∀ n, scheduler.directDependsOriginal n = ∅
  inputs : ∀ n ∈ scheduler.inputsOriginal, n ∈ scheduler.allNodes ∧
    ∀ u ∈ userRulesOf rules, ∀ m ∈ u.provides, n ∉ matrixToNodes m
  intermediates : ∀ n ∈ scheduler.intermediatesOriginal, n ∈ scheduler.allNodes
  outputs : ∀ n ∈ scheduler.outputsOriginal,
    n ∈ scheduler.allNodes ∧ scheduler.isOutput n = true
  ids : ∀ r ∈ rules, ∀ u ∈ userRulesOf rules, r.id = u.id → r = .user u

namespace Transform

variable {F S : Type} [DecidableEq F] {M : MaximaWrapper F S} (tx : Transform M)

/-- The loop of `lookupNode`: it stops at a node whose region has the same text. -/
def lookupLoop (region : SimpleRegion F) :
    List Node → ChoiceDepGraphNodeSet → Option ChoiceDepGraphNodeSet
  | [], rv => some rv
  | i :: rest, rv =>
      if region = tx.region i then some (rv.insert i ())
      else do
        if ← (tx.region i).hasIntersect M region then
          lookupLoop region rest (rv.insert i ())
        else lookupLoop region rest rv

/-- The nodes of a region of a matrix; no value where the code stops at an assertion. -/
def lookupNode (matrix : Matrix) (region : SimpleRegion F) : Option ChoiceDepGraphNodeSet := do
  let regions := tx.matrixToNodes matrix
  let rv ←
    if tx.numDimensions matrix = 0 then
      match regions with
      | [n] => some ((∅ : ChoiceDepGraphNodeSet).insert n ())
      | _ => none
    else tx.lookupLoop region regions ∅
  if rv.entries = [] then none else some rv

/-- Add a dependency edge. -/
def addDependency (g : StaticScheduler) (a b : Node) (r : Rule) (dir : DependencyDirection) :
    StaticScheduler :=
  { g with
    directDependsOriginal := Function.update g.directDependsOriginal a
      ((g.directDependsOriginal a).update b fun o =>
        let i := o.getD default
        ⟨insert r i.rules, i.direction.addDirection dir⟩) }

/-- Add a dependency of every node of a set on every node of another that is possible. -/
def addPossible (possible : Node → Node → Bool) (r : Rule) (dir : DependencyDirection)
    (pNode dNode : ChoiceDepGraphNodeSet) (g : StaticScheduler) : StaticScheduler :=
  pNode.keys.foldl
    (fun g a => dNode.keys.foldl
      (fun g b => if possible a b then addDependency g a b r dir else g) g) g

/-- The direction of the null dependency between two outputs of a rule. -/
def multioutput (dimensions : Nat) : DependencyDirection :=
  ⟨List.replicate (max 1 dimensions) D_MULTIOUTPUT⟩

/-- What a rule depends on where it provides the nodes `pNode`. -/
def collectDepends (r : UserRule F) (pNode : ChoiceDepGraphNodeSet) (g : StaticScheduler) :
    Option StaticScheduler :=
  r.depends.entries.foldlM (fun g d => do
    let dNode ← tx.lookupNode d.1 d.2.region
    some (addPossible
      (fun a b => dependencyPossible M (tx.region a) (tx.region b) d.2.direction)
      r.id d.2.direction pNode dNode g)) g

/-- Null dependency on all other output regions. -/
def collectOutputs (r : UserRule F) (matrix : Matrix) (pNode : ChoiceDepGraphNodeSet)
    (g : StaticScheduler) : Option StaticScheduler :=
  r.provides.entries.foldlM (fun g pp =>
    if matrix = pp.1 then some g
    else do
      let dNode ← tx.lookupNode pp.1 pp.2.region
      some (addPossible (fun _ _ => true) r.id (multioutput r.dimensions) pNode dNode g)) g

/-- `UserRule::collectDependencies`. -/
def collectUserRule (r : UserRule F) (g : StaticScheduler) : Option StaticScheduler :=
  r.provides.entries.foldlM (fun g p => do
    let pNode ← tx.lookupNode p.1 p.2.region
    let g ← tx.collectDepends r pNode g
    tx.collectOutputs r p.1 pNode g) g

mutual

/-- `collectDependencies` of a rule, which a wrapper passes on. -/
def collectRule : RuleInterface F → StaticScheduler → Option StaticScheduler
  | .user rule, g => tx.collectUserRule rule g
  | .wrapper _ rule, g => collectRule rule g
  | .whereExpansion _ rules, g => collectRules rules g

/-- `collectDependencies` of a set of rules, one after the other. -/
def collectRules : List (RuleInterface F) → StaticScheduler → Option StaticScheduler
  | [], g => some g
  | r :: rest, g => do
      let g ← collectRule r g
      collectRules rest g

end

/-- The loop of `Transform::compile` over the rules. -/
def collectDependencies : Option StaticScheduler := tx.collectRules tx.rules tx.scheduler

end Transform

end PbDataDependency
