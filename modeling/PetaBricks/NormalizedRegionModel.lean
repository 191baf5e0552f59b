import PetaBricks.ScatterProofs
import PetaBricks.MatrixRegionModel

/-! # Normalised buffers — `asNormalizedRegion`, `to_c_array`, `from_c_array`

    A storage is the list of its elements, and a new one has some elements or others (`fresh`).
    A read or a write outside a storage is undefined (`none`). -/

namespace PbMatrixRegion

open PbRegionMatrix PbLocalRegion PbScatter

variable {E : Type}

def cell (m : MatrixRegion) (storage : List E) (coord : List IndexT) : Option E :=
  (coordToPtr m coord).bind (get storage)

def setCell (m : MatrixRegion) (storage : List E) (coord : List IndexT) (x : E) :
    Option (List E) :=
  (coordToPtr m coord).bind fun p => put storage p x

def isEntireBuffer (m : MatrixRegion) (storage : List E) : Bool :=
  m.sizes.isEmpty || decide ((storage.length : ℤ) = count m)

/-! ## `asNormalizedRegion` -/

/-- `t.cell(coord) = this->cell(coord)` at some coordinates. -/
def copyCells (m : MatrixRegion) (storage : List E) (t : MatrixRegion) :
    List (List IndexT) → List E → Option (List E)
  | [], data => some data
  | coord :: coords, data => do
      let x ← cell m storage coord
      let data ← setCell t data coord x
      copyCells m storage t coords data

/-- The region, and the elements of its storage. -/
def asNormalizedRegion (m : MatrixRegion) (storage fresh : List E) (n : ℕ) :
    Option (MatrixRegion × List E) :=
  if isEntireBuffer m storage then some (m, storage)
  else do
    let t ← allocate m.sizes
    let coords ← doWhile (incCoord m) n (zeros m)
    let data ← copyCells m storage t coords fresh
    pure (t, data)

/-! ## Arrays -/

/-- An array, which may be the storage of the region itself. -/
structure CArray (E : Type) where
  shared : Bool
  data : List E
  deriving DecidableEq, Repr

/-- `out[n++] = in.cell(coord)` at some coordinates; `n` is an `int`. -/
def copyToArray (m : MatrixRegion) (storage : List E) :
    List (List IndexT) → ℤ → List E → Option (List E)
  | [], _, out => some out
  | coord :: coords, n, out => do
      let x ← cell m storage coord
      let out ← put out n x
      if IsInt (n + 1) then copyToArray m storage coords (n + 1) out else none

/-- `out.cell(coord) = in[n++]` at some coordinates. -/
def copyFromArray (m : MatrixRegion) (array : List E) :
    List (List IndexT) → ℤ → List E → Option (List E)
  | [], _, storage => some storage
  | coord :: coords, n, storage => do
      let x ← get array n
      let storage ← setCell m storage coord x
      if IsInt (n + 1) then copyFromArray m array coords (n + 1) storage else none

def toCArray (m : MatrixRegion) (storage fresh : List E) (n : ℕ) : Option (CArray E) :=
  if !m.sizes.isEmpty && isEntireBuffer m storage then some ⟨true, storage⟩
  else do
    let coords ← doWhile (incCoord m) n (zeros m)
    let data ← copyToArray m storage coords 0 fresh
    pure ⟨false, data⟩

/-- The elements of the storage afterwards. -/
def fromCArray (m : MatrixRegion) (storage : List E) (ar : CArray E) (n : ℕ) : Option (List E) :=
  if m.sizes.isEmpty || !ar.shared then do
    let coords ← doWhile (incCoord m) n (zeros m)
    copyFromArray m ar.data coords 0 storage
  -- the array is the storage
  else some ar.data

end PbMatrixRegion
