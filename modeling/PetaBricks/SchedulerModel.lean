import PetaBricks.OrderedMapProofs
import Mathlib.Data.Finset.Basic
import Mathlib.Data.Finset.Card
import Mathlib.Logic.Function.Basic

/-!
# The static scheduler — choice dependency graph, coscheduling and the schedule

The scheduler turns the dependencies between the regions a transform computes into an order to
execute them in, once for each way to choose a rule for every region:

  * `applyChoiceRemapping` keeps the dependencies of the chosen rules;
  * `computeIndirectDependencies` closes them transitively, in place, until a round changes
    nothing;
  * `mergeCoscheduledNodes` collapses each strongly connected component, or each set of
    outputs of one rule, into a meta node, redirects the edges, and asks each meta node
    whether it can execute its members (`findValidSchedule`);
  * `Schedule::initialize` walks the merged graph depth first from the outputs.

Nodes are addresses: every set and map of the scheduler is ordered by address, and so are its
walks.  The fields of the node objects are functions of the address, and `new` is given the
addresses it returns (`alloc`).  Rules are numbers, the null rule is `none`.  A loop whose
length the data does not bound takes fuel.

Left out: the code generator and GPU data of the nodes, and the removal of useless matrix
dimensions between the two middle steps, which edits regions and rules but no dependency.  Of
a region only the printed extents are kept, which is what the scheduler compares.
-/

namespace PbScheduler

open PbOrderedMap

/-- The address of a node. -/
abbrev Node := Nat

abbrev Rule := Nat

/-- How a run of the scheduler ends when it does not end with a result. -/
inductive Stop
  | cantSchedule
  | dependencyCycle
  | notAnOutput
  | undefinedBehavior
  | outOfFuel
  deriving DecidableEq, Repr

/-! ## Directions -/

/-- A set of directions in one dimension. -/
abbrev DirectionT := BitVec 4

def D_NONE : DirectionT := 0
def D_LT : DirectionT := 1
def D_EQ : DirectionT := 2
def D_GT : DirectionT := 4
def D_MULTIOUTPUT : DirectionT := 8

/-- One set of directions for each dimension. -/
structure DependencyDirection where
  directionMask : List DirectionT
  deriving DecidableEq, Repr

namespace DependencyDirection

def size (d : DependencyDirection) : Nat := d.directionMask.length

/-- `operator[]`, with no direction past the end. -/
def mask (d : DependencyDirection) (dim : Nat) : DirectionT := d.directionMask.getD dim D_NONE

/-- Merge two directions, dimension by dimension; the shorter one is padded. -/
def addDirection (left right : DependencyDirection) : DependencyDirection :=
  ⟨(List.range (max left.size right.size)).map (fun i => left.mask i ||| right.mask i)⟩

def isMultioutput (d : DependencyDirection) : Bool :=
  d.directionMask.any (fun m => m &&& D_MULTIOUTPUT ≠ 0)

def removeMultioutput (d : DependencyDirection) : DependencyDirection :=
  ⟨d.directionMask.map (fun m => m &&& ~~~ D_MULTIOUTPUT)⟩

end DependencyDirection

/-! ## Dependencies -/

/-- The rules that cause a dependency and its directions. -/
structure DependencyInformation where
  rules : Finset Rule
  direction : DependencyDirection
  deriving DecidableEq

namespace DependencyInformation

instance : Inhabited DependencyInformation := ⟨⟨∅, ⟨[]⟩⟩⟩

/-- Add that to this, true if the information was updated. -/
def merge (this that : DependencyInformation) : DependencyInformation × Bool :=
  let rules := this.rules ∪ that.rules
  let direction := this.direction.addDirection that.direction
  (⟨rules, direction⟩, rules.card ≠ this.rules.card || this.direction ≠ direction)

def contains (this : DependencyInformation) : Option Rule → Bool
  | none => false
  | some p => p ∈ this.rules

end DependencyInformation

abbrev ScheduleDependencies := OrderedMap Node DependencyInformation

abbrev ChoiceDepGraphNodeSet := OrderedSet Node

abbrev ChoiceDepGraphNodeRemapping := OrderedMap Node Node

/-- A rule for every node; the null rule for nodes without choices. -/
abbrev RuleChoiceAssignment := Node → Option Rule

namespace ScheduleDependencies

/-- Merge slot by slot, creating what is missing. -/
def merge (this that : ScheduleDependencies) : ScheduleDependencies :=
  that.entries.foldl
    (fun m i => m.update i.1 (fun o => ((o.getD default).merge i.2).1)) this

/-- Redirect the slots of remapped nodes.  Two slots redirected to one node are not merged:
    the later one in address order overwrites the earlier one. -/
def applyRemapping (this : ScheduleDependencies) (map : ChoiceDepGraphNodeRemapping) :
    ScheduleDependencies :=
  if map.entries = [] then this
  else this.entries.foldl
    (fun m i => m.insert ((map.find i.1).getD i.1) i.2) ∅

end ScheduleDependencies

namespace ChoiceDepGraphNodeSet

/-- Replace the remapped members. -/
def applyRemapping (this : ChoiceDepGraphNodeSet) (map : ChoiceDepGraphNodeRemapping) :
    ChoiceDepGraphNodeSet :=
  map.entries.foldl
    (fun s i => if i.1 ∈ s then (s.erase i.1).insert i.2 () else s) this

def overlaps (this that : ChoiceDepGraphNodeSet) : Bool :=
  this.keys.any (fun n => n ∈ that)

/-- `insert(set.begin(), set.end())`. -/
def insertAll (this set : ChoiceDepGraphNodeSet) : ChoiceDepGraphNodeSet :=
  set.keys.foldl (fun s n => s.insert n ()) this

end ChoiceDepGraphNodeSet

/-! ## The graph -/

/-- What a rule does to a dependency it causes depends on its class and, for a user rule, on
    how many regions it writes. -/
inductive RuleKind
  | user (toSize : Nat)
  | synthetic
  deriving DecidableEq, Repr

/-- The loop a sliced node generates: dimension, order and bounds. -/
structure SliceLoop where
  dimension : Nat
  forward : Bool
  first : Option String
  last : Option String
  deriving DecidableEq, Repr

/-- The class of a node. -/
inductive NodeKind
  | basic
  | multiOutput (originalNodes : ChoiceDepGraphNodeSet)
  | sliced (originalNodes : ChoiceDepGraphNodeSet) (loop : Option SliceLoop)
  deriving DecidableEq

/-- The members of a meta node. -/
def NodeKind.originalNodes : NodeKind → ChoiceDepGraphNodeSet
  | basic => ∅
  | multiOutput set => set
  | sliced set _ => set

/-- The scheduler and the fields of its nodes. -/
structure StaticScheduler where
  allNodes : List Node
  ruleKind : Rule → RuleKind
  isInput : Node → Bool
  isOutput : Node → Bool
  choices : Node → List Rule
  minCoord : Node → Nat → String
  maxCoord : Node → Nat → String
  kind : Node → NodeKind
  directDependsOriginal : Node → ScheduleDependencies
  directDependsRemapped : Node → ScheduleDependencies
  indirectDepends : Node → ScheduleDependencies
  inputsOriginal : ChoiceDepGraphNodeSet
  intermediatesOriginal : ChoiceDepGraphNodeSet
  outputsOriginal : ChoiceDepGraphNodeSet
  inputsRemapped : ChoiceDepGraphNodeSet
  intermediatesRemapped : ChoiceDepGraphNodeSet
  outputsRemapped : ChoiceDepGraphNodeSet

/-- A scheduler without nodes. -/
instance : Inhabited StaticScheduler where
  default :=
    { allNodes := []
      ruleKind := fun _ => .synthetic
      isInput := fun _ => false
      isOutput := fun _ => false
      choices := fun _ => []
      minCoord := fun _ _ => ""
      maxCoord := fun _ _ => ""
      kind := fun _ => .basic
      directDependsOriginal := fun _ => ∅
      directDependsRemapped := fun _ => ∅
      indirectDepends := fun _ => ∅
      inputsOriginal := ∅
      intermediatesOriginal := ∅
      outputsOriginal := ∅
      inputsRemapped := ∅
      intermediatesRemapped := ∅
      outputsRemapped := ∅ }

namespace StaticScheduler

/-- The remapped dependencies, or the original ones when there are none. -/
def directDepends (g : StaticScheduler) (n : Node) : ScheduleDependencies :=
  if (g.directDependsRemapped n).entries = [] then g.directDependsOriginal n
  else g.directDependsRemapped n

def resetRemapping (g : StaticScheduler) (n : Node) : StaticScheduler :=
  { g with
    directDependsRemapped := Function.update g.directDependsRemapped n ∅
    indirectDepends := Function.update g.indirectDepends n ∅ }

/-- A user rule that writes a single region drops the multi output mark. -/
def trimDependency (g : StaticScheduler) (choice : Option Rule)
    (dep : DependencyDirection) : DependencyDirection :=
  match choice.map g.ruleKind with
  | some (.user toSize) =>
      if dep.isMultioutput ∧ toSize ≤ 1 then dep.removeMultioutput else dep
  | _ => dep

/-- Keep the dependencies of the chosen rule. -/
def applyChoiceRemapping (g : StaticScheduler) (map : RuleChoiceAssignment) (n : Node) :
    StaticScheduler :=
  let choice := map n
  let remapped := (g.directDependsOriginal n).entries.foldl
    (fun m i =>
      if i.2.contains choice then
        m.insert i.1 ⟨i.2.rules, g.trimDependency choice i.2.direction⟩
      else m)
    (g.directDependsRemapped n)
  { g with directDependsRemapped := Function.update g.directDependsRemapped n remapped }

/-! ## Indirect dependencies -/

/-- Merge the indirect dependencies of one remote node, counting what changed. -/
def mergeRemote (s : ScheduleDependencies × Nat) (remote : ScheduleDependencies) :
    ScheduleDependencies × Nat :=
  remote.entries.foldl
    (fun s dep =>
      let merged := ((s.1.find dep.1).getD default).merge dep.2
      (s.1.update dep.1 (fun o => ((o.getD default).merge dep.2).1),
        if merged.2 then s.2 + 1 else s.2))
    s

/-- Run one iteration to update the indirect dependencies of a node, return the count of
    changes.  The loop walks a snapshot but reads live tables, its own included. -/
def updateIndirectDepends (g : StaticScheduler) (n : Node) : StaticScheduler × Nat :=
  let seed :=
    if (g.indirectDepends n).entries = [] then
      (g.directDepends n, (g.directDepends n).entries.length)
    else (g.indirectDepends n, 0)
  let out := seed.1.entries.foldl
    (fun s i => mergeRemote s (if i.1 = n then s.1 else g.indirectDepends i.1)) seed
  ({ g with indirectDepends := Function.update g.indirectDepends n out.1 }, out.2)

/-- Keep iterating until no changes have been made. -/
def computeIndirectDependencies : Nat → StaticScheduler → Except Stop StaticScheduler
  | 0, _ => .error .outOfFuel
  | fuel + 1, g =>
      let out := g.allNodes.foldl
        (fun s i =>
          let u := s.1.updateIndirectDepends i
          (u.1, s.2 + u.2))
        (g, 0)
      if out.2 = 0 then .ok out.1 else computeIndirectDependencies fuel out.1

/-! ## Coscheduling -/

/-- A set that contains one node. -/
def single (n : Node) : ChoiceDepGraphNodeSet := (∅ : ChoiceDepGraphNodeSet).insert n ()

def getStronglyConnectedComponent (g : StaticScheduler) (n : Node) : ChoiceDepGraphNodeSet :=
  if n ∉ g.indirectDepends n then single n
  else (g.indirectDepends n).keys.foldl
    (fun s i => if n ∈ g.indirectDepends i then s.insert i () else s) (single n)

def getMultioutputComponent (g : StaticScheduler) (n : Node) : ChoiceDepGraphNodeSet :=
  (g.directDepends n).entries.foldl
    (fun s i => if i.2.direction.isMultioutput then s.insert i.1 () else s) (single n)

/-- Construct a meta node: merge the dependencies and the marks of its members. -/
def newMetaNode (g : StaticScheduler) (addr : Node) (kind : NodeKind) : StaticScheduler :=
  let set := kind.originalNodes.keys
  { g with
    kind := Function.update g.kind addr kind
    choices := Function.update g.choices addr []
    isInput := Function.update g.isInput addr (set.any g.isInput)
    isOutput := Function.update g.isOutput addr (set.any g.isOutput)
    directDependsOriginal := Function.update g.directDependsOriginal addr
      (set.foldl (fun m i => ScheduleDependencies.merge m (g.directDependsOriginal i)) ∅)
    directDependsRemapped := Function.update g.directDependsRemapped addr
      (set.foldl (fun m i => ScheduleDependencies.merge m (g.directDependsRemapped i)) ∅)
    indirectDepends := Function.update g.indirectDepends addr
      (set.foldl (fun m i => ScheduleDependencies.merge m (g.indirectDepends i)) ∅) }

/-- The local variables of the coscheduling loop. -/
structure Coscheduling where
  graph : StaticScheduler
  done : ChoiceDepGraphNodeSet
  mapping : ChoiceDepGraphNodeRemapping
  newMetaNodes : List Node

/-- Make a meta node and map its members to it. -/
def Coscheduling.coschedule (s : Coscheduling) (alloc : Nat → Node) (kind : NodeKind) :
    Coscheduling :=
  let addr := alloc s.newMetaNodes.length
  let set := kind.originalNodes
  { graph := s.graph.newMetaNode addr kind
    done := ChoiceDepGraphNodeSet.insertAll s.done set
    mapping := set.keys.foldl (fun m e => m.insert e addr) s.mapping
    newMetaNodes := s.newMetaNodes ++ [addr] }

/-- Process nodes one connected component at a time. -/
def Coscheduling.process (alloc : Nat → Node) (s : Coscheduling) (i : Node) :
    Except Stop Coscheduling :=
  if i ∈ s.done then .ok s
  else
    let set := s.graph.getMultioutputComponent i
    let component := s.graph.getStronglyConnectedComponent i
    if 1 < set.entries.length then
      if ChoiceDepGraphNodeSet.overlaps set s.done ∨ set ≠ component then .error .cantSchedule
      else .ok (s.coschedule alloc (.multiOutput set))
    else if 1 < component.entries.length then .ok (s.coschedule alloc (.sliced component none))
    else .ok { s with done := ChoiceDepGraphNodeSet.insertAll s.done component }

/-- Redirect the dependencies of a node. -/
def applyRemapping (g : StaticScheduler) (map : ChoiceDepGraphNodeRemapping) (n : Node) :
    StaticScheduler :=
  { g with
    directDependsRemapped := Function.update g.directDependsRemapped n
      (ScheduleDependencies.applyRemapping (g.directDepends n) map)
    indirectDepends := Function.update g.indirectDepends n
      (ScheduleDependencies.applyRemapping (g.indirectDepends n) map) }

/-! ## Valid schedules of meta nodes -/

/-- All members are computed by one rule. -/
def multiOutputValid (choice : RuleChoiceAssignment) : Option Rule → List Node → Bool
  | _, [] => true
  | rule, i :: rest =>
      let rule := rule.or (choice i)
      if rule ≠ choice i then false else multiOutputValid choice rule rest

/-- Test matching region extents in `d`; the extents of the first member are the bounds. -/
def matchExtents (g : StaticScheduler) (d : Nat) :
    Option String → Option String → List Node → Option (Option String × Option String)
  | first, last, [] => some (first, last)
  | first, last, i :: rest =>
      let first := first.or (some (g.minCoord i d))
      let last := last.or (some (g.maxCoord i d))
      if first ≠ some (g.minCoord i d) ∨ last ≠ some (g.maxCoord i d) then none
      else g.matchExtents d first last rest

/-- Try the dimensions below the given one from the last to the first. -/
def findSlice (g : StaticScheduler) (originalNodes : ChoiceDepGraphNodeSet)
    (selfDep : DependencyDirection) : Nat → Option SliceLoop
  | 0 => none
  | d + 1 =>
      match g.matchExtents d none none originalNodes.keys with
      | none => g.findSlice originalNodes selfDep d
      | some (first, last) =>
          if selfDep.mask d &&& ~~~ D_LT = 0 then some ⟨d, true, first, last⟩
          else if selfDep.mask d &&& ~~~ D_GT = 0 then some ⟨d, false, first, last⟩
          else g.findSlice originalNodes selfDep d

/-- A meta node decides whether it can execute its members.  A sliced one looks up its
    dependency on itself, creating an empty one when there is none. -/
def findValidSchedule (g : StaticScheduler) (choice : RuleChoiceAssignment) (n : Node) :
    StaticScheduler × Bool :=
  match g.kind n with
  | .basic => (g, true)
  | .multiOutput set => (g, multiOutputValid choice none set.keys)
  | .sliced set _ =>
      let depends := (g.indirectDepends n).update n (fun o => o.getD default)
      let selfDep := (depends.find n).getD default
      let g := { g with indirectDepends := Function.update g.indirectDepends n depends }
      match g.findSlice set selfDep.direction selfDep.direction.size with
      | none => (g, false)
      | some loop => ({ g with kind := Function.update g.kind n (.sliced set (some loop)) }, true)

/-! ## Merging -/

/-- The first loop of the merge: components and their meta nodes. -/
def coscheduleNodes (g : StaticScheduler) (alloc : Nat → Node) : Except Stop Coscheduling :=
  g.allNodes.foldlM (Coscheduling.process alloc) ⟨g, ∅, ∅, []⟩

/-- The two loops that redirect the nodes and then the new meta nodes. -/
def remapNodes (s : Coscheduling) : StaticScheduler :=
  s.newMetaNodes.foldl (fun g i => g.applyRemapping s.mapping i)
    (s.graph.allNodes.foldl (fun g i => g.applyRemapping s.mapping i) s.graph)

/-- The loop that asks every new meta node for a valid schedule. -/
def validateMetaNodes (choice : RuleChoiceAssignment) (g : StaticScheduler)
    (newMetaNodes : List Node) : Except Stop StaticScheduler :=
  newMetaNodes.foldlM
    (fun g i =>
      if (g.findValidSchedule choice i).2 then .ok (g.findValidSchedule choice i).1
      else .error .cantSchedule) g

def mergeCoscheduledNodes (g : StaticScheduler) (choice : RuleChoiceAssignment)
    (alloc : Nat → Node) : Except Stop StaticScheduler := do
  let s ← g.coscheduleNodes alloc
  let g ← validateMetaNodes choice (remapNodes s) s.newMetaNodes
  .ok { g with
    inputsRemapped := ChoiceDepGraphNodeSet.applyRemapping g.inputsOriginal s.mapping
    intermediatesRemapped :=
      ChoiceDepGraphNodeSet.applyRemapping g.intermediatesOriginal s.mapping
    outputsRemapped := ChoiceDepGraphNodeSet.applyRemapping g.outputsOriginal s.mapping }

/-- The graph a choice of rules leaves: what `generateSchedule` does before it merges. -/
def chooseRules (g : StaticScheduler) (choice : RuleChoiceAssignment) (fuel : Nat) :
    Except Stop StaticScheduler :=
  let g := g.allNodes.foldl resetRemapping g
  let g := g.allNodes.foldl (fun g i => g.applyChoiceRemapping choice i) g
  computeIndirectDependencies fuel g

/-! ## The schedule -/

/-- A node and a snapshot of its dynamic dependencies. -/
structure ScheduleEntry where
  node : Node
  deps : ScheduleDependencies
  deriving DecidableEq

/-- Take the snapshot; inputs and the node itself are filtered out. -/
def scheduleEntry (g : StaticScheduler) (n : Node) : ScheduleEntry :=
  ⟨n, (g.directDependsRemapped n).filter (fun i => !g.isInput i && i ≠ n)⟩

/-- Intermediate state used while scheduling. -/
structure SchedulingState where
  generated : ChoiceDepGraphNodeSet
  pending : ChoiceDepGraphNodeSet
  schedule : List ScheduleEntry

/-- Schedule a node after the nodes it depends on. -/
def depthFirstChoiceDepGraphNode (g : StaticScheduler) :
    Nat → SchedulingState → Node → Except Stop SchedulingState
  | 0, _, _ => .error .outOfFuel
  | fuel + 1, state, n =>
      if n ∈ state.generated then .ok state
      else if n ∈ state.pending then .error .dependencyCycle
      else do
        let state ← (g.directDepends n).keys.foldlM
          (fun state i => if i = n then .ok state
            else g.depthFirstChoiceDepGraphNode fuel state i)
          { state with pending := state.pending.insert n () }
        .ok { state with
          schedule := state.schedule ++ [g.scheduleEntry n]
          generated := state.generated.insert n () }

/-- An intermediate node that was not generated must have its first choice, or the schedule
    repeats another one. -/
def checkIntermediate (g : StaticScheduler) (choice : RuleChoiceAssignment)
    (state : SchedulingState) (i : Node) : Except Stop Unit :=
  if i ∈ state.generated then .ok ()
  else match (g.choices i).head? with
    | none => .error .undefinedBehavior
    | some first => if choice i ≠ some first then .error .cantSchedule else .ok ()

/-- Walk depth first from the outputs. -/
def scheduleOutputs (g : StaticScheduler) (fuel : Nat) : Except Stop SchedulingState :=
  g.outputsRemapped.keys.foldlM
    (fun state i =>
      if g.isOutput i then g.depthFirstChoiceDepGraphNode fuel state i
      else .error .notAnOutput)
    ⟨g.inputsRemapped, ∅, []⟩

def initializeSchedule (g : StaticScheduler) (choice : RuleChoiceAssignment) (fuel : Nat) :
    Except Stop (List ScheduleEntry) := do
  let state ← g.scheduleOutputs fuel
  g.intermediatesRemapped.keys.forM (g.checkIntermediate choice state)
  .ok state.schedule

end StaticScheduler

end PbScheduler
