import Mathlib.Algebra.Group.Nat.Defs
import Mathlib.Algebra.Ring.Int.Defs
import Mathlib.Data.Int.Init
import Mathlib.Tactic.Common

/-! # Memoised transforms — one cached call, by reference

    A memoised transform keeps its last call that had to be computed: what
    describes its inputs and outputs, a digest of each input's storage, and
    the storages themselves.  A later call with the same metadata and digests
    gets the contents that the output storages have then.

    Storages are memory with a fixed number of elements, and the callers write
    to them between calls.  The entry is made before the outputs are computed:
    a call that is no hit leaves a job that ends at some later time. -/

namespace PbMemoization

variable {E K H : Type}

/-! ## Elements and digests -/

/-- `MATRIX_ELEMENT_T` and `jalib::Hash`.  `toFloat` is the element as it is hashed: converted to
    a `float`, with one zero, and NaNs without their sign. -/
structure Elements (E K H : Type) where
  zero : E
  /-- `==`, which need not hold of a NaN and itself. -/
  eq : E → E → Bool
  toFloat : E → K
  /-- The digest of some floats. -/
  digest : List K → H
  /-- `HashT()` -/
  noHash : H
  digest_injective : Function.Injective digest

/-! ## Storages and regions -/

/-- The contents of memory, by storage and index. -/
abbrev Data (E : Type) := Nat → Nat → E

def Data.set (d : Data E) (mem i : Nat) (v : E) : Data E :=
  fun m j => if m = mem ∧ j = i then v else d m j

/-- The first elements of a storage. -/
def Data.contents (d : Data E) (mem count : Nat) : List E := (List.range count).map (d mem)

/-- `memcpy` of the first elements. -/
def Data.memcpy (d : Data E) (dst src count : Nat) : Data E :=
  fun m j => if m = dst ∧ j < count then d src j else d m j

/-- The coordinates in a region, the first dimension running fastest. -/
def coords : List Nat → List (List Nat)
  | [] => [[]]
  | n :: sizes => (coords sizes).flatMap fun c => (List.range n).map (· :: c)

/-- What is compared of a matrix beside its elements. -/
structure Metadata where
  baseOffset : Nat
  sizes : List Nat
  multipliers : List Int
  deriving DecidableEq

namespace Metadata

/-- `coordToIndex`. -/
def coordToIndex (m : Metadata) (c : List Nat) : Nat :=
  (m.baseOffset + (List.zipWith (fun (x : Int) (y : Nat) => x * y) m.multipliers c).sum).toNat

def indices (m : Metadata) : List Nat := (coords m.sizes).map m.coordToIndex

def count (m : Metadata) : Nat := m.sizes.prod

end Metadata

/-- A `MatrixRegion`, in memory that is a `MatrixStorage` or, for a number that was passed by
    reference, is not.  `count` is what every storage has. -/
structure Region (count : Nat → Nat) where
  mem : Nat
  hasStorage : Bool
  metadata : Metadata
  inStorage : ∀ i ∈ metadata.indices, i < count mem

namespace Region

variable {count : Nat → Nat} (r : Region count)

def isEntireBuffer : Bool :=
  r.metadata.sizes = [] || r.hasStorage && count r.mem = r.metadata.count

/-- The elements, in the order of the coordinates. -/
def read (d : Data E) : List E := r.metadata.indices.map (d r.mem)

end Region

/-- Elements are written one after the other. -/
def writeCells (mem : Nat) : List Nat → (Nat → E) → Data E → Data E
  | [], _, d => d
  | i :: is, values, d => writeCells mem is (fun n => values (n + 1)) (d.set mem i (values 0))

/-- All elements of a region, numbered in the order of the coordinates. -/
def Region.write {count : Nat → Nat} (r : Region count) (values : Nat → E) (d : Data E) : Data E :=
  writeCells r.mem r.metadata.indices values d

/-- An input: a `ConstMatrixRegion0D` is a number. -/
inductive Input (E : Type) (count : Nat → Nat)
  | scalar (v : E)
  | region (r : Region count)

/-- What a computation sees of an input. -/
inductive Value (E : Type)
  | scalar (v : E)
  | matrix (sizes : List Nat) (elements : List E)

def Input.value {count : Nat → Nat} (d : Data E) : Input E count → Value E
  | .scalar v => .scalar v
  | .region r => .matrix r.metadata.sizes (r.read d)

def Input.isEntireBuffer {count : Nat → Nat} : Input E count → Bool
  | .scalar _ => true
  | .region r => r.isEntireBuffer

/-! ## What is cached -/

/-- `MatrixStorageInfo`, as far as memoisation uses it. -/
structure MatrixStorageInfo (E H : Type) where
  storage : Option Nat
  metadata : Metadata
  hash : H
  extraVal : E

section Site

variable {count : Nat → Nat} (el : Elements E K H)

/-- `exportTo`; the base offset is only set with a storage. -/
def Region.exportTo (r : Region count) : MatrixStorageInfo E H :=
  if r.hasStorage then ⟨some r.mem, r.metadata, el.noHash, el.zero⟩
  else ⟨none, { r.metadata with baseOffset := 0 }, el.noHash, el.zero⟩

def Input.exportTo : Input E count → MatrixStorageInfo E H
  | .scalar v => ⟨none, ⟨0, [], []⟩, el.noHash, v⟩
  | .region r => r.exportTo el

/-- `MatrixStorage::hash`. -/
def hash (count : Nat → Nat) (d : Data E) (mem : Nat) : H :=
  el.digest ((d.contents mem (count mem)).map el.toFloat)

namespace MatrixStorageInfo

def computeDataHash (count : Nat → Nat) (d : Data E) (i : MatrixStorageInfo E H) :
    MatrixStorageInfo E H :=
  { i with hash := match i.storage with
      | some mem => PbMemoization.hash el count d mem
      | none => el.noHash }

def isMetadataMatch (i j : MatrixStorageInfo E H) : Bool := i.metadata = j.metadata

variable [DecidableEq H]

def isDataMatch (i j : MatrixStorageInfo E H) : Bool :=
  el.eq i.extraVal j.extraVal && !(i.storage.isSome && i.hash = el.noHash) && i.hash = j.hash

end MatrixStorageInfo

variable {IN OUT : Nat}

/-- The matrices of a call. -/
structure Call (E : Type) (count : Nat → Nat) (IN OUT : Nat) where
  inputs : Fin IN → Input E count
  outputs : Fin OUT → Region count

/-- `MemoizationInstance`, with the number of the call that was exported to it and what its inputs
    were then. -/
structure MemoizationInstance (E H : Type) (count : Nat → Nat) (IN OUT : Nat) where
  inputs : Fin IN → MatrixStorageInfo E H
  outputs : Fin OUT → MatrixStorageInfo E H
  number : Nat
  call : Call E count IN OUT
  data : Data E

/-- A computation under way: its outputs, and what it will write to them. -/
structure Job (E : Type) (count : Nat → Nat) (OUT : Nat) where
  number : Nat
  outputs : Fin OUT → Region count
  results : Fin OUT → Nat → E

/-- Memory, the cached call, and the computations that have not ended. -/
structure State (E H : Type) (count : Nat → Nat) (IN OUT : Nat) where
  data : Data E
  last : Option (MemoizationInstance E H count IN OUT)
  jobs : List (Job E count OUT)
  calls : Nat

/-- What the transform computes from its inputs, for outputs of some sizes. -/
abbrev Compute (E : Type) (IN OUT : Nat) :=
  (Fin IN → Value E) → (Fin OUT → List Nat) → Fin OUT → Nat → E

def Call.values (c : Call E count IN OUT) (d : Data E) : Fin IN → Value E :=
  fun i => (c.inputs i).value d

def Call.results (compute : Compute E IN OUT) (c : Call E count IN OUT) (d : Data E) :
    Fin OUT → Nat → E :=
  compute (c.values d) fun i => (c.outputs i).metadata.sizes

def Call.isEntireBuffer (c : Call E count IN OUT) : Bool :=
  decide (∀ i, (c.outputs i).isEntireBuffer = true) &&
    decide (∀ i, (c.inputs i).isEntireBuffer = true)

/-- What is exported for a call, with the inputs hashed. -/
def Call.memo (c : Call E count IN OUT) (s : State E H count IN OUT) :
    MemoizationInstance E H count IN OUT where
  inputs i := ((c.inputs i).exportTo el).computeDataHash el count s.data
  outputs i := (c.outputs i).exportTo el
  number := s.calls
  call := c
  data := s.data

variable [DecidableEq H]

namespace MemoizationInstance

variable (mi last : MemoizationInstance E H count IN OUT)

def isMetadataMatch : Bool :=
  decide (∀ i, (mi.inputs i).isMetadataMatch (last.inputs i) = true) &&
    decide (∀ i, (mi.outputs i).isMetadataMatch (last.outputs i) = true)

def isInputDataMatch : Bool :=
  decide (∀ i, (mi.inputs i).isDataMatch el (last.inputs i) = true)

end MemoizationInstance

/-- The cached call that answers a call. -/
def memoize (c : Call E count IN OUT) (s : State E H count IN OUT) :
    Option (MemoizationInstance E H count IN OUT) :=
  s.last.filter fun last =>
    (c.memo el s).isMetadataMatch last && (c.memo el s).isInputDataMatch el last

/-- `copyFrom`; nothing is copied where the storages are the same.  Without a storage on one side
    there is no behaviour to speak of. -/
def copyFrom (r : Region count) (i : MatrixStorageInfo E H) (d : Data E) : Data E :=
  match r.hasStorage, i.storage with
  | true, some mem => if mem = r.mem then d else d.memcpy r.mem mem (count r.mem)
  | _, _ => d

/-- `tryMemoize` for a call that is a hit. -/
def copyOutputs (c : Call E count IN OUT) (last : MemoizationInstance E H count IN OUT)
    (d : Data E) : Data E :=
  (List.finRange OUT).foldl (fun d i => copyFrom (c.outputs i) (last.outputs i) d) d

def tryMemoize (c : Call E count IN OUT) (s : State E H count IN OUT) :
    Bool × State E H count IN OUT :=
  if c.isEntireBuffer then
    match memoize el c s with
    | some last => (true, { s with data := copyOutputs c last s.data })
    | none => (false, { s with last := some (c.memo el s) })
  else (false, s)

/-! ## Runs -/

/-- Outputs are written in order. -/
def Job.finish (j : Job E count OUT) (d : Data E) : Data E :=
  (List.finRange OUT).foldl (fun d i => (j.outputs i).write (j.results i) d) d

/-- A caller writes an element, the transform is called, or a computation ends. -/
inductive Step (E : Type) (count : Nat → Nat) (IN OUT : Nat)
  | write (mem i : Nat) (v : E)
  | call (c : Call E count IN OUT)
  | finish (number : Nat)

/-- A call that is no hit is computed from its inputs. -/
def startJob (compute : Compute E IN OUT) (c : Call E count IN OUT)
    (s : State E H count IN OUT) : State E H count IN OUT :=
  { s with
    jobs := ⟨s.calls, c.outputs, c.results compute s.data⟩ :: s.jobs
    calls := s.calls + 1 }

def Step.run (compute : Compute E IN OUT) (s : State E H count IN OUT) :
    Step E count IN OUT → State E H count IN OUT
  | .write mem i v => { s with data := s.data.set mem i v }
  | .call c =>
      match tryMemoize el c s with
      | (true, s) => s
      | (false, s) => startJob compute c s
  | .finish number =>
      match s.jobs.find? fun j => j.number = number with
      | some j => { s with
          data := j.finish s.data
          jobs := s.jobs.filter fun j => j.number ≠ number }
      | none => s

/-- The state after some steps. -/
def runAll (compute : Compute E IN OUT) (d : Data E) (steps : List (Step E count IN OUT)) :
    State E H count IN OUT :=
  steps.foldl (Step.run el compute) ⟨d, none, [], 0⟩

end Site

end PbMemoization
